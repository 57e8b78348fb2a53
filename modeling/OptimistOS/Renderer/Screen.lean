import OptimistOS.Boot.BootInfo
import OptimistOS.Foundation.Stores
import OptimistOS.Renderer.Print

/-!
# The screen

`Clear` and `Print` on the memory of the frame buffer. The pixels of a screen are
words of four bytes that do not overlap, and the scan lines below its lower edge do
not come back to it. So after `Clear` and any number of calls of `Print` the screen
shows the strings as one text, set in lines, and nothing else
(`showsText_of_prints`).
-/

namespace OptimistOS

open ByteMemory CString

def Pixel.store (p : Pixel) : Store 64 :=
  ⟨p.address, 4, p.color.toNat⟩

namespace BasicRenderer

def clearPixels (r : BasicRenderer) (color : Unsigned) : List Pixel :=
  (List.range r.framebuffer.Height.toNat).flatMap fun y =>
    (List.range r.framebuffer.Width.toNat).map fun x =>
      { r.pixel x y with color := color }

def clear (color : Unsigned) (resetCursor : Bool) (s : BasicRenderer × Bytes) :
    BasicRenderer × Bytes :=
  (if resetCursor then s.1.moveTo ⟨0, 0⟩ else s.1,
    applyStores s.2 ((s.1.clearPixels color).map Pixel.store))

def printOn (fuel : ℕ) (str : ℤ → Byte) (s : BasicRenderer × Bytes) :
    Option (BasicRenderer × Bytes) :=
  (print str fuel 0 s.1).map fun x =>
    (x.1, applyStores s.2 ((x.2.flatMap s.1.putChar).map Pixel.store))

def prints (fuel : ℕ) : List (ℤ → Byte) → BasicRenderer × Bytes →
    Option (BasicRenderer × Bytes)
  | [], s => some s
  | str :: strs, s => (printOn fuel str s).bind (prints fuel strs)

end BasicRenderer

/-- The scan lines are as wide as the screen, and their lengths in bytes are
numbers of 32 bits. -/
structure Framebuffer.ScanLines (f : Framebuffer) : Prop where
  width_le : f.Width.toNat ≤ f.PixelsPerScanLine.toNat
  line_le : f.PixelsPerScanLine.toNat ≤ 2 ^ 30

/-- The character of a cell lights the pixel in the column `x` of the row `y`. Rows
are counted in 32 bits, and the last 16 of them are never drawn. -/
def Cell.Lights (r : BasicRenderer) (c : Cell) (x y : ℕ) : Prop :=
  16 * c.line % 2 ^ 32 + 16 < 2 ^ 32 ∧
    ∃ row < 16, ∃ col < 8, r.lit c.chr row col = true ∧
      x = 8 * c.col + col ∧ y = 16 * c.line % 2 ^ 32 + row

instance (r : BasicRenderer) (c : Cell) (x y : ℕ) : Decidable (c.Lights r x y) :=
  inferInstanceAs (Decidable (_ ∧ ∃ row < 16, ∃ col < 8, _))

def placeAfter (w : ℕ) : ℕ → ℕ → List Byte → ℕ × ℕ
  | n, l, [] => (n, l)
  | n, l, c :: text =>
      if c = ascii '\n' then placeAfter w (n + l / w + 1) 0 text
      else placeAfter w n (l + 1) text

theorem cells_append (w n l : ℕ) (s t : List Byte) :
    cells w n l (s ++ t) = cells w n l s ++
      cells w (placeAfter w n l s).1 (placeAfter w n l s).2 t := by
  induction s generalizing n l with
  | nil => rfl
  | cons c s ih =>
      rw [List.cons_append, cells, cells, placeAfter]
      split_ifs with hnewline htab
      · exact ih _ _
      · exact ih _ _
      · rw [ih, List.cons_append]

namespace BasicRenderer

variable {r : BasicRenderer} {color c : Unsigned} {ps : List Pixel} {m m' : Bytes}
  {x y n l fuel : ℕ} {text : List Byte} {str : ℤ → Byte} {i : ℤ}

theorem address_pixel (r : BasicRenderer) (x y : ℕ) :
    (r.pixel x y).address = r.framebuffer.BaseAddress +
      BitVec.ofNat 64 (4 * (x + y * r.framebuffer.PixelsPerScanLine.toNat)) := by
  rw [BitVec.ofNat_mul, BitVec.ofNat_add, BitVec.ofNat_mul, BitVec.ofNat_toNat]
  rfl

/-- Different pixels do not overlap. -/
theorem disjoint_pixel (h : r.framebuffer.ScanLines) {x' y' : ℕ}
    (hx : x < r.framebuffer.PixelsPerScanLine.toNat) (hy : y < 2 ^ 32)
    (hx' : x' < r.framebuffer.PixelsPerScanLine.toNat) (hy' : y' < 2 ^ 32)
    (hne : ¬ (x' = x ∧ y' = y)) :
    Disjoint (region (r.pixel x' y').address 4) (region (r.pixel x y).address 4) := by
  set P := r.framebuffer.PixelsPerScanLine.toNat with hP
  have hline := h.line_le
  have hbound : ∀ {x y : ℕ}, x < P → y < 2 ^ 32 → x + y * P + 1 ≤ 2 ^ 62 := by
    intro x y hx hy
    calc x + y * P + 1 ≤ P + y * P := by omega
      _ = (y + 1) * P := by ring
      _ ≤ 2 ^ 32 * 2 ^ 30 := Nat.mul_le_mul hy hline
      _ = 2 ^ 62 := by norm_num
  have hnext : ∀ {x y y' : ℕ} (x' : ℕ), x < P → y < y' →
      x + y * P + 1 ≤ x' + y' * P := by
    intro x y y' x' hx hy
    calc x + y * P + 1 ≤ P + y * P := by omega
      _ = (y + 1) * P := by ring
      _ ≤ y' * P := Nat.mul_le_mul_right P hy
      _ ≤ x' + y' * P := Nat.le_add_left _ _
  have hb := hbound hx hy
  have hb' := hbound hx' hy'
  rw [address_pixel, address_pixel, ← hP]
  rcases Nat.lt_trichotomy (x' + y' * P) (x + y * P) with hlt | heq | hgt
  · exact disjoint_region_of_le _ (by omega) (by omega)
  · rcases Nat.lt_trichotomy y' y with hlt | rfl | hgt
    · have := hnext x hx' hlt
      omega
    · exact absurd ⟨by omega, rfl⟩ hne
    · have := hnext x' hx hgt
      omega
  · exact (disjoint_region_of_le _ (by omega) (by omega)).symm

def screen (r : BasicRenderer) : Set Addr :=
  {a | ∃ x < r.framebuffer.Width.toNat, ∃ y < r.framebuffer.Height.toNat,
    a ∈ region (r.pixel x y).address 4}

def OnLines (r : BasicRenderer) (c : Unsigned) (ps : List Pixel) : Prop :=
  ∀ p ∈ ps, ∃ x < r.framebuffer.PixelsPerScanLine.toNat, ∃ y < 2 ^ 32,
    p = { r.pixel x y with color := c }

/-- A pixel of the screen after others were written. -/
theorem load_pixel (h : r.framebuffer.ScanLines) (hps : r.OnLines c ps)
    (hx : x < r.framebuffer.PixelsPerScanLine.toNat) (hy : y < 2 ^ 32)
    (m : Bytes) :
    ((∃ p ∈ ps, p.x = x ∧ p.y = y) →
      load (applyStores m (ps.map Pixel.store)) (r.pixel x y).address 4 = c.toNat) ∧
    ((¬ ∃ p ∈ ps, p.x = x ∧ p.y = y) →
      load (applyStores m (ps.map Pixel.store)) (r.pixel x y).address 4 =
        load m (r.pixel x y).address 4) := by
  have hstore : ∀ p ∈ ps, p.x = x ∧ p.y = y →
      p.store = ⟨(r.pixel x y).address, 4, c.toNat⟩ := by
    intro p hp hxy
    obtain ⟨x', -, y', -, rfl⟩ := hps p hp
    obtain ⟨rfl, rfl⟩ : x' = x ∧ y' = y := hxy
    rfl
  have hapart : ∀ p ∈ ps, ¬ (p.x = x ∧ p.y = y) →
      Disjoint p.store.bytes (region (r.pixel x y).address 4) := by
    intro p hp hne
    obtain ⟨x', hx', y', hy', rfl⟩ := hps p hp
    exact disjoint_pixel h hx hy hx' hy' hne
  constructor
  · rintro ⟨p, hp, hxy⟩
    have hmem : (⟨(r.pixel x y).address, 4, c.toNat⟩ : Store 64) ∈
        ps.map Pixel.store := List.mem_map.2 ⟨p, hp, hstore p hp hxy⟩
    have hwidth : 4 ≤ 2 ^ 64 := by decide
    have hload := load_applyStores_of_mem (m := m) hwidth hmem fun e he => by
      obtain ⟨q, hq, rfl⟩ := List.mem_map.1 he
      by_cases hqxy : q.x = x ∧ q.y = y
      · exact .inl (hstore q hq hqxy)
      · exact .inr (hapart q hq hqxy)
    exact hload.trans (Nat.mod_eq_of_lt c.isLt)
  · intro hnone
    apply load_applyStores_of_disjoint (by decide)
    intro e he
    obtain ⟨q, hq, rfl⟩ := List.mem_map.1 he
    exact hapart q hq fun hqxy => hnone ⟨q, hq, hqxy⟩

theorem onLines_clearPixels (h : r.framebuffer.ScanLines) (color : Unsigned) :
    r.OnLines color (r.clearPixels color) := by
  intro p hp
  simp only [clearPixels, List.mem_flatMap, List.mem_map, List.mem_range] at hp
  obtain ⟨y, hy, x, hx, rfl⟩ := hp
  have hheight := r.framebuffer.Height.isLt
  exact ⟨x, lt_of_lt_of_le hx h.width_le, y, by omega, rfl⟩

theorem exists_mem_clearPixels (hx : x < r.framebuffer.Width.toNat)
    (hy : y < r.framebuffer.Height.toNat) :
    ∃ p ∈ r.clearPixels color, p.x = x ∧ p.y = y := by
  refine ⟨{ r.pixel x y with color := color }, ?_, rfl, rfl⟩
  simp only [clearPixels, List.mem_flatMap, List.mem_map, List.mem_range]
  exact ⟨y, hy, x, hx, rfl⟩

def textPixels (r : BasicRenderer) (cs : List Cell) : List Pixel :=
  (cs.map Cell.draw).flatMap r.putChar

section

variable (h : r.framebuffer.ScanLines) (hwidth : 8 ≤ r.framebuffer.Width.toNat)

include h hwidth

theorem off_draw {cell : Cell}
    (hcell : cell ∈ cells (columns r.framebuffer.Width) n l text) :
    8 * cell.col + 8 ≤ r.framebuffer.Width.toNat ∧
      cell.draw.xOff.toNat = 8 * cell.col ∧
      cell.draw.yOff.toNat = 16 * cell.line % 2 ^ 32 := by
  have hle := h.width_le.trans h.line_le
  have hcolumns : columns r.framebuffer.Width = r.framebuffer.Width.toNat / 8 :=
    if_pos (by omega)
  rw [hcolumns] at hcell
  have hcol := col_lt_of_mem_cells hcell (by omega)
  refine ⟨by omega, ?_, BitVec.toNat_ofNat _ _⟩
  exact (BitVec.toNat_ofNat _ _).trans (Nat.mod_eq_of_lt (by omega))

theorem mem_textPixels_iff (x y : ℕ) :
    (∃ p ∈ r.textPixels (cells (columns r.framebuffer.Width) n l text),
      p.x = x ∧ p.y = y) ↔
    ∃ cell ∈ cells (columns r.framebuffer.Width) n l text, cell.Lights r x y := by
  have hle := h.width_le.trans h.line_le
  simp only [textPixels, List.mem_flatMap, List.mem_map]
  constructor
  · rintro ⟨p, ⟨_, ⟨cell, hcell, rfl⟩, hp⟩, rfl, rfl⟩
    obtain ⟨-, hxOff, hyOff⟩ := off_draw h hwidth hcell
    obtain ⟨⟨-, hY⟩, row, hrow, col, hcol, hlit, rfl⟩ := mem_putChar.1 hp
    rw [hyOff] at hY
    exact ⟨cell, hcell, hY, row, hrow, col, hcol, hlit, by rw [← hxOff]; rfl,
      by rw [← hyOff]; rfl⟩
  · rintro ⟨cell, hcell, hY, row, hrow, col, hcol, hlit, rfl, rfl⟩
    obtain ⟨hright, hxOff, hyOff⟩ := off_draw h hwidth hcell
    refine ⟨_, ⟨_, ⟨cell, hcell, rfl⟩, mem_putChar.2 ⟨⟨?_, ?_⟩, row, hrow, col, hcol,
      hlit, rfl⟩⟩, ?_, ?_⟩
    · rw [hxOff]
      omega
    · rwa [hyOff]
    · rw [← hxOff]
      rfl
    · rw [← hyOff]
      rfl

theorem onLines_textPixels :
    r.OnLines r.color
      (r.textPixels (cells (columns r.framebuffer.Width) n l text)) := by
  intro p hp
  simp only [textPixels, List.mem_flatMap, List.mem_map] at hp
  obtain ⟨_, ⟨cell, hcell, rfl⟩, hp⟩ := hp
  obtain ⟨hright, hxOff, -⟩ := off_draw h hwidth hcell
  obtain ⟨⟨-, hY⟩, row, hrow, col, hcol, -, rfl⟩ := mem_putChar.1 hp
  have hle := h.width_le
  exact ⟨_, by omega, _, by omega, rfl⟩

theorem storedBytes_textPixels_subset
    (hfits : ∀ cell ∈ cells (columns r.framebuffer.Width) n l text, cell.Fits r) :
    storedBytes ((r.textPixels (cells (columns r.framebuffer.Width) n l text)).map
      Pixel.store) ⊆ r.screen := by
  rintro a ⟨e, he, ha⟩
  obtain ⟨p, hp, rfl⟩ := List.mem_map.1 he
  have honLines := onLines_textPixels h hwidth p hp
  simp only [textPixels, List.mem_flatMap, List.mem_map] at hp
  obtain ⟨_, ⟨cell, hcell, rfl⟩, hp⟩ := hp
  obtain ⟨hx, hy⟩ := (forall_mem_putChar_iff hwidth hcell).2 (hfits cell hcell) p hp
  obtain ⟨x, -, y, -, rfl⟩ := honLines
  exact ⟨x, hx, y, hy, ha⟩

end

def behind (r : BasicRenderer) (place : ℕ × ℕ) : BasicRenderer :=
  r.moveTo (cursorAt (columns r.framebuffer.Width) place.1 place.2)

theorem print_behind (hwidth : 8 ≤ r.framebuffer.Width.toNat)
    (hstr : StringAt str i text) {x : BasicRenderer × List Draw}
    (hrun : print str fuel i (r.behind (n, l)) = some x) :
    x.1 = r.behind (placeAfter (columns r.framebuffer.Width) n l text) := by
  induction text generalizing i n l fuel x with
  | nil =>
      cases fuel with
      | zero => exact absurd hrun (by simp [print])
      | succ fuel =>
          rw [print, if_neg (not_not.2 (stringAt_nil.1 hstr))] at hrun
          obtain rfl := Option.some.inj hrun
          rfl
  | cons c text ih =>
      obtain ⟨rfl, hne, htail⟩ := hstr
      have hat : (r.behind (n, l)).At n l := rfl
      cases fuel with
      | zero => exact absurd hrun (by simp [print])
      | succ fuel =>
          rw [print_succ hne] at hrun
          obtain ⟨y, hy, rfl⟩ := Option.map_eq_some_iff.1 hrun
          rw [placeAfter]
          rw [printChar] at hy
          split_ifs at hy ⊢ with hnewline htab
          · rw [hat.wrap_newline hwidth] at hy
            exact ih (x := y) htail hy
          · rw [hat.wrap_right hwidth] at hy
            exact ih (x := y) htail hy
          · rw [hat.wrap_right hwidth] at hy
            exact ih (x := y) htail hy

end BasicRenderer

/-- The screen shows a text, given by its cells, on the background `color`. Before,
the memory was `m`. -/
structure ShowsText (r : BasicRenderer) (color : Unsigned) (m : Bytes)
    (cs : List Cell) (m' : Bytes) : Prop where
  lit : ∀ x < r.framebuffer.Width.toNat, ∀ y < r.framebuffer.Height.toNat,
    (∃ cell ∈ cs, cell.Lights r x y) →
      load m' (r.pixel x y).address 4 = r.color.toNat
  dark : ∀ x < r.framebuffer.Width.toNat, ∀ y < r.framebuffer.Height.toNat,
    (¬ ∃ cell ∈ cs, cell.Lights r x y) →
      load m' (r.pixel x y).address 4 = color.toNat
  others : (∀ cell ∈ cs, cell.Fits r) → AgreeOff r.screen m m'

open BasicRenderer

variable {r : BasicRenderer} {color : Unsigned} {m m' : Bytes} {cs : List Cell}
  {fuel : ℕ}

namespace ShowsText

theorem after_clear (h : r.framebuffer.ScanLines) (color : Unsigned)
    (m : Bytes) :
    ShowsText r color m [] (clear color true (r, m)).2 := by
  have hload := fun {x y : ℕ} (hx : x < r.framebuffer.Width.toNat)
      (hy : y < r.framebuffer.Height.toNat) =>
    (load_pixel h (onLines_clearPixels h color) (lt_of_lt_of_le hx h.width_le)
      (hy.trans r.framebuffer.Height.isLt) m).1 (exists_mem_clearPixels hx hy)
  refine ⟨fun x hx y hy hlit => ?_, fun x hx y hy _ => hload hx hy, fun _ => ?_⟩
  · obtain ⟨cell, hcell, -⟩ := hlit
    exact absurd hcell List.not_mem_nil
  · intro a ha
    refine (applyStores_of_notMem ?_).symm
    rintro ⟨e, he, hae⟩
    obtain ⟨p, hp, rfl⟩ := List.mem_map.1 he
    simp only [clearPixels, List.mem_flatMap, List.mem_map, List.mem_range] at hp
    obtain ⟨y, hy, x, hx, rfl⟩ := hp
    exact ha ⟨x, hx, y, hy, hae⟩

/-- The screen after another text. -/
theorem append (h : r.framebuffer.ScanLines)
    (hwidth : 8 ≤ r.framebuffer.Width.toNat) (hshows : ShowsText r color m cs m')
    (n l : ℕ) (text : List Byte) :
    let new := cells (columns r.framebuffer.Width) n l text
    ShowsText r color m (cs ++ new)
      (applyStores m' ((r.textPixels new).map Pixel.store)) := by
  intro new
  have honLines : r.OnLines r.color (r.textPixels new) :=
    onLines_textPixels h hwidth
  have hload := fun {x y : ℕ} (hx : x < r.framebuffer.Width.toNat)
      (hy : y < r.framebuffer.Height.toNat) =>
    load_pixel h honLines (lt_of_lt_of_le hx h.width_le)
      (hy.trans r.framebuffer.Height.isLt) m'
  simp only [new, mem_textPixels_iff h hwidth] at hload
  refine ⟨fun x hx y hy hlit => ?_, fun x hx y hy hdark => ?_, fun hfits => ?_⟩
  · by_cases hnew : ∃ cell ∈ new, cell.Lights r x y
    · exact (hload hx hy).1 hnew
    · obtain ⟨cell, hcell, hlights⟩ := hlit
      rw [(hload hx hy).2 hnew]
      refine hshows.lit x hx y hy ⟨cell, ?_, hlights⟩
      exact (List.mem_append.1 hcell).resolve_right fun hcell =>
        hnew ⟨cell, hcell, hlights⟩
  · rw [(hload hx hy).2 fun ⟨cell, hcell, hlights⟩ =>
      hdark ⟨cell, List.mem_append_right cs hcell, hlights⟩]
    exact hshows.dark x hx y hy fun ⟨cell, hcell, hlights⟩ =>
      hdark ⟨cell, List.mem_append_left new hcell, hlights⟩
  · intro a ha
    rw [hshows.others (fun cell hcell => hfits cell (List.mem_append_left new hcell))
      a ha]
    refine (applyStores_of_notMem fun hstored => ha ?_).symm
    exact storedBytes_textPixels_subset h hwidth
      (fun cell hcell => hfits cell (List.mem_append_right cs hcell)) hstored

theorem after_prints (h : r.framebuffer.ScanLines)
    (hwidth : 8 ≤ r.framebuffer.Width.toNat) (place : ℕ × ℕ)
    (hshows : ShowsText r color m cs m') {strs : List (ℤ → Byte)} {texts : List (List Byte)}
    (hstrs : List.Forall₂ (fun str text => StringAt str 0 text) strs texts)
    (hfuel : ∀ text ∈ texts, text.length < fuel) :
    ∃ s, prints fuel strs (r.behind place, m') = some s ∧
      ShowsText r color m (cs ++ cells (columns r.framebuffer.Width) place.1
        place.2 texts.flatten) s.2 := by
  induction hstrs generalizing cs m' place with
  | nil =>
      refine ⟨_, rfl, ?_⟩
      rwa [List.flatten_nil, cells, List.append_nil]
  | @cons str text strs texts hstr _ ih =>
      obtain ⟨x, hx⟩ := print_ends hstr (hfuel text List.mem_cons_self)
        (r.behind place)
      have hdraws := print_spec (r := r.behind place) hwidth hstr rfl hx
      have hbehind := print_behind hwidth hstr hx
      obtain ⟨s, hs, hshown⟩ := ih (placeAfter _ place.1 place.2 text)
        (hshows.append h hwidth place.1 place.2 text)
        fun text htext => hfuel text (List.mem_cons_of_mem _ htext)
      refine ⟨s, ?_, ?_⟩
      · rw [prints, printOn, hx]
        change prints fuel strs (x.1, applyStores m'
          ((x.2.flatMap r.putChar).map Pixel.store)) = some s
        rw [hbehind, hdraws]
        exact hs
      · rw [List.flatten_cons, cells_append, ← List.append_assoc]
        exact hshown

end ShowsText

/-- After `Clear` the screen shows the strings that are printed as one text. -/
theorem BasicRenderer.showsText_of_prints (h : r.framebuffer.ScanLines)
    (hwidth : 8 ≤ r.framebuffer.Width.toNat) (color : Unsigned) (m : Bytes)
    {strs : List (ℤ → Byte)} {texts : List (List Byte)}
    (hstrs : List.Forall₂ (fun str text => StringAt str 0 text) strs texts)
    (hfuel : ∀ text ∈ texts, text.length < fuel) :
    ∃ s, prints fuel strs (clear color true (r, m)) = some s ∧
      ShowsText r color m
        (cells (columns r.framebuffer.Width) 0 0 texts.flatten) s.2 := by
  have hcursor : (clear color true (r, m)).1 = r.behind (0, 0) := by
    rw [behind, cursorAt, Nat.zero_mod, Nat.zero_div]
    rfl
  obtain ⟨s, hs, hshown⟩ := ShowsText.after_prints h hwidth (0, 0)
    (ShowsText.after_clear h color m) hstrs hfuel
  refine ⟨s, ?_, hshown⟩
  rwa [← hcursor] at hs

/-- A screen of two characters with a font of dashes. -/
def wideRenderer : BasicRenderer :=
  { smallRenderer with framebuffer := ⟨0xFD000000, 16, 16, 16⟩ }

/-- The second dash, of a call of its own, is at the right of the first one. -/
theorem BasicRenderer.showsText_of_prints_dashes :
    ∃ s, prints 2 [literal ("-".toList.map ascii), literal ("-".toList.map ascii)]
        (clear 0 true (wideRenderer, fun _ => 0)) = some s ∧
      load s.2 (wideRenderer.pixel 9 8).address 4 = 0xFFFFFFFF ∧
      load s.2 (wideRenderer.pixel 9 7).address 4 = 0 := by
  have hlines : wideRenderer.framebuffer.ScanLines := ⟨by decide, by decide⟩
  have hdash : StringAt (literal ("-".toList.map ascii)) 0
      ("-".toList.map ascii) := stringAt_literal (by decide)
  have hfuel : ∀ text ∈ ["-".toList.map ascii, "-".toList.map ascii],
      text.length < 2 := by
    decide
  obtain ⟨s, hs, hshown⟩ := showsText_of_prints hlines (by decide) 0 (fun _ => 0)
    (.cons hdash (.cons hdash .nil)) hfuel
  exact ⟨s, hs, hshown.lit 9 (by decide) 8 (by decide) (by decide),
    hshown.dark 9 (by decide) 7 (by decide) (by decide)⟩

end OptimistOS
