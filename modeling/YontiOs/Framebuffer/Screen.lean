import YontiOs.Framebuffer.Pixels
import YontiOs.Machinery.Terminal

/-!
# Framebuffer/Screen — the framebuffer shows a terminal

`Shows ink w t` says that the picture of `w` is that of the terminal `t`: every cell has the
enlarged glyph of its character, blank cells are black, and only the bar of a drawn cursor may hide
what is under it.  Each method of the writer then does to the terminal what its name says
(`Shows.writeByte_print`, `Shows.writeByte_newline`, `Shows.writeByte_back`).  Where the cursor is
left behind, the bar is wiped with the background color, so the cell must look like that there
(`CursorClear`).
-/

namespace YontiOs.Framebuffer

/-- What a cell shows: a character in two colors. -/
structure Ink where
  ch : UInt8
  fg : Color
  bg : Color

/-- The color of a pixel of the glyph. -/
def Ink.color (i : Ink) (row col : ℕ) : Color := if lit i.ch row col then i.fg else i.bg

variable {rows cols : ℕ} {α : Type*} {ink : α → Ink} {t : Terminal rows cols α} {a : α}
  {w w' : FrameBufferWriter} {x y : ℕ} {byte : UInt8}

/-- A pixel of what a cell shows; a blank cell is black. -/
def cellColor (ink : α → Ink) (cell : Option α) (row col : ℕ) : Color :=
  match cell with
  | none => (0, 0, 0)
  | some a => (ink a).color row col

/-- The picture of a terminal at scale `s`. -/
def pixelOf (ink : α → Ink) (t : Terminal rows cols α) (s x y : ℕ) : Color :=
  cellColor ink (t.cell (y / (charHeight * s)) (x / (charWidth * s)))
    (y % (charHeight * s) / s) (x % (charWidth * s) / s)

namespace FrameBufferWriter

/-- The screen has so many rows and columns of cells. -/
structure Layout (w : FrameBufferWriter) (rows cols : ℕ) : Prop extends Geometry w where
  scale_pos : 0 < w.scaleFactor
  rows_eq : w.info.height / w.cellHeight = rows
  cols_eq : w.info.width / w.cellWidth = cols

/-- **The writer shows the terminal**, but for what a drawn cursor hides. -/
structure Shows (ink : α → Ink) (w : FrameBufferWriter) (t : Terminal rows cols α) : Prop where
  layout : Layout w rows cols
  x_eq : w.xPos = t.col * w.cellWidth
  y_eq : w.yPos = t.row * w.cellHeight
  pixels : ∀ x y, x < cols * w.cellWidth → y < w.info.height →
    ¬ (w.cursorShown = true ∧ (x, y) ∈ w.bar) →
      w.readPixel x y = some (pixelOf ink t w.scaleFactor x y)

/-- What text does not change. -/
structure SamePen (w w' : FrameBufferWriter) : Prop where
  fg : w'.fg = w.fg
  bg : w'.bg = w.bg
  escape : w'.escapeState = w.escapeState
  scale : w'.scaleFactor = w.scaleFactor
  info : w'.info = w.info

theorem SamePen.trans {w'' : FrameBufferWriter} (h : SamePen w w') (h' : SamePen w' w'') :
    SamePen w w'' :=
  ⟨h'.fg.trans h.fg, h'.bg.trans h.bg, h'.escape.trans h.escape, h'.scale.trans h.scale,
    h'.info.trans h.info⟩

/-- The terminal's picture under the cursor bar is the background. -/
def CursorClear (ink : α → Ink) (w : FrameBufferWriter) (t : Terminal rows cols α) : Prop :=
  ∀ x y, x < cols * w.cellWidth → (x, y) ∈ w.bar → pixelOf ink t w.scaleFactor x y = w.bg

/-! ## Cells -/

theorem cellWidth_pos (hs : 0 < w.scaleFactor) : 0 < w.cellWidth := Nat.mul_pos (by decide) hs

theorem cellHeight_pos (hs : 0 < w.scaleFactor) : 0 < w.cellHeight := Nat.mul_pos (by decide) hs

/-- The rectangle of a cell has the pixels that divide to it. -/
theorem mem_rect_cell {r c cw ch : ℕ} (hcw : 0 < cw) (hch : 0 < ch) :
    (x, y) ∈ rect (c * cw) (r * ch) cw ch ↔ x / cw = c ∧ y / ch = r := by
  rw [Nat.div_eq_iff hcw, Nat.div_eq_iff hch]
  simp only [rect, Set.mem_ofPred_eq]
  have h1 : cw * c = c * cw := Nat.mul_comm _ _
  have h2 : ch * r = r * ch := Nat.mul_comm _ _
  omega

theorem pixelOf_of_none {s : ℕ} (h : t.cell (y / (charHeight * s)) (x / (charWidth * s)) = none) :
    pixelOf ink t s x y = (0, 0, 0) := by
  rw [pixelOf, h, cellColor]

theorem pixelOf_of_some {s : ℕ} (h : t.cell (y / (charHeight * s)) (x / (charWidth * s)) = some a) :
    pixelOf ink t s x y =
      (ink a).color (y % (charHeight * s) / s) (x % (charWidth * s) / s) := by
  rw [pixelOf, h, cellColor]

theorem pixelOf_congr {t' : Terminal rows cols α} {s : ℕ}
    (h : t'.cell (y / (charHeight * s)) (x / (charWidth * s)) =
      t.cell (y / (charHeight * s)) (x / (charWidth * s))) :
    pixelOf ink t' s x y = pixelOf ink t s x y := by
  rw [pixelOf, pixelOf, h]

/-- The picture inside a cell. -/
theorem pixelOf_cell {s r c dy dx : ℕ} (hdy : dy < charHeight * s) (hdx : dx < charWidth * s) :
    pixelOf ink t s (c * (charWidth * s) + dx) (r * (charHeight * s) + dy) =
      cellColor ink (t.cell r c) (dy / s) (dx / s) := by
  rw [pixelOf, Grid.div hdy, Grid.div hdx, Grid.mod hdy, Grid.mod hdx]

/-- The bar is in the cell of the cursor. -/
theorem bar_subset : w.bar ⊆ rect w.xPos w.yPos w.cellWidth w.cellHeight := by
  rintro ⟨x, y⟩ ⟨hx, hy⟩
  have hle : cursorHeight * w.scaleFactor ≤ w.cellHeight := Nat.mul_le_mul_right _ (by decide)
  dsimp only at hy
  refine ⟨hx, ?_⟩
  dsimp only
  omega

/-- The picture of a scrolled terminal is the picture a cell further down. -/
theorem pixelOf_scroll {t' : Terminal rows cols α} {s : ℕ} (hs : 0 < s)
    (hcell : ∀ r c, t'.cell r c = t.cell (r + 1) c) :
    pixelOf ink t' s x y = pixelOf ink t s x (y + charHeight * s) := by
  have hch : 0 < charHeight * s := Nat.mul_pos (by decide) hs
  rw [pixelOf, pixelOf, hcell, Nat.add_div_right y hch, Nat.add_mod_right]

namespace Layout

variable (h : Layout w rows cols)
include h

theorem congr (hinfo : w'.info = w.info) (hlen : w'.bufferLen = w.bufferLen)
    (hscale : w'.scaleFactor = w.scaleFactor) : Layout w' rows cols := by
  obtain ⟨⟨h1, h2, h3⟩, h4, h5, h6⟩ := h
  rw [cellHeight] at h5
  rw [cellWidth] at h6
  exact ⟨⟨by rwa [hinfo], by rwa [hinfo], by rwa [hinfo, hlen]⟩, by rwa [hscale],
    by rwa [cellHeight, hinfo, hscale], by rwa [cellWidth, hinfo, hscale]⟩

theorem width_lt (hx : x < cols * w.cellWidth) : x < w.info.width := by
  have := Nat.div_mul_le_self w.info.width w.cellWidth
  rw [h.cols_eq] at this
  omega

/-- So many columns fit. -/
theorem le_cols_iff (n : ℕ) : n ≤ cols ↔ n * w.cellWidth ≤ w.info.width := by
  rw [← h.cols_eq, Nat.le_div_iff_mul_le (cellWidth_pos h.scale_pos)]

/-- So many rows fit. -/
theorem le_rows_iff (n : ℕ) : n ≤ rows ↔ n * w.cellHeight ≤ w.info.height := by
  rw [← h.rows_eq, Nat.le_div_iff_mul_le (cellHeight_pos h.scale_pos)]

end Layout

namespace Shows

/-- The cursor fits its row unless the row is full. -/
theorem full_iff (h : Shows ink w t) : w.xPos + w.cellWidth > w.info.width ↔ ¬ t.col < cols := by
  have hle := h.layout.le_cols_iff (t.col + 1)
  rw [Nat.add_mul, Nat.one_mul, ← h.x_eq] at hle
  omega

/-- A full row has its cursor outside the grid. -/
theorem cursorClear_of_full (h : Shows ink w t) (hfull : ¬ t.col < cols) : CursorClear ink w t := by
  intro x y hx hbar
  have hcol : t.col = cols := le_antisymm t.col_le (not_lt.mp hfull)
  have hle := hbar.1.1
  rw [h.x_eq, hcol] at hle
  omega

theorem pixels_of_not_shown (h : Shows ink w t) (hshown : w.cursorShown = false)
    (hx : x < cols * w.cellWidth) (hy : y < w.info.height) :
    w.readPixel x y = some (pixelOf ink t w.scaleFactor x y) :=
  h.pixels x y hx hy fun hb => Bool.false_ne_true (hshown.symm.trans hb.1)

/-- **A cell shows its character**, but for the bar of a cursor in it. -/
theorem readPixel_cell (h : Shows ink w t) {r c dy dx : ℕ} (hr : r < rows) (hc : c < cols)
    (hdy : dy < w.cellHeight) (hdx : dx < w.cellWidth)
    (hbar : ¬ (t.row = r ∧ t.col = c ∧ (c * w.cellWidth + dx, r * w.cellHeight + dy) ∈ w.bar)) :
    w.readPixel (c * w.cellWidth + dx) (r * w.cellHeight + dy) =
      some (cellColor ink (t.cell r c) (dy / w.scaleFactor) (dx / w.scaleFactor)) := by
  have hcw := cellWidth_pos h.layout.scale_pos
  have hch := cellHeight_pos h.layout.scale_pos
  have hy : r * w.cellHeight + dy < w.info.height :=
    (Grid.lt hr hdy).trans_le ((h.layout.le_rows_iff rows).mp le_rfl)
  refine (h.pixels _ _ (Grid.lt hc hdx) hy fun hb => hbar ?_).trans
    (congrArg some (pixelOf_cell hdy hdx))
  have hcell := bar_subset hb.2
  rw [h.x_eq, h.y_eq, mem_rect_cell hcw hch, Grid.div hdx, Grid.div hdy] at hcell
  exact ⟨hcell.2.symm, hcell.1.symm, hb.2⟩

/-! ## The cursor -/

/-- **Erasing the cursor**, where the terminal shows the background under it. -/
theorem eraseCursor (h : Shows ink w t) (hclear : CursorClear ink w t) :
    ∃ buf, w.eraseCursor = { w with buffer := buf, cursorShown := false } ∧
      Shows ink { w with buffer := buf, cursorShown := false } t := by
  rw [FrameBufferWriter.eraseCursor]
  rcases hshown : w.cursorShown with _ | _
  · exact ⟨w.buffer, (with_cursorShown hshown).symm, h.layout.congr rfl rfl rfl, h.x_eq, h.y_eq,
      fun x y hx hy _ => h.pixels_of_not_shown hshown hx hy⟩
  · have hp := h.layout.pixelsApart.paintCursor_paints w.bg
    obtain ⟨buf, hbuf⟩ := hp.frame
    rw [hbuf] at hp ⊢
    refine ⟨buf, rfl, h.layout.congr rfl rfl rfl, h.x_eq, h.y_eq, fun x y hx hy _ => ?_⟩
    by_cases hbar : (x, y) ∈ w.bar
    · have hread := hp.inside (x, y) hbar
      rw [h.layout.readPixel_eq ⟨h.layout.width_lt hx, hy⟩] at hread
      exact hread.trans (congrArg some (hclear x y hx hbar).symm)
    · exact (hp.outside (x, y) hbar).trans (h.pixels x y hx hy fun hb => hbar hb.2)

/-- **Drawing the cursor.** -/
theorem drawCursor (h : Shows ink w t) :
    ∃ buf, w.drawCursor = { w with buffer := buf, cursorShown := true } ∧
      Shows ink { w with buffer := buf, cursorShown := true } t := by
  rw [FrameBufferWriter.drawCursor]
  rcases hshown : w.cursorShown with _ | _
  · have hp := h.layout.pixelsApart.paintCursor_paints w.fg
    obtain ⟨buf, hbuf⟩ := hp.frame
    rw [hbuf] at hp ⊢
    refine ⟨buf, rfl, h.layout.congr rfl rfl rfl, h.x_eq, h.y_eq, fun x y hx hy hbar => ?_⟩
    have hout : (x, y) ∉ w.bar := fun hb => hbar ⟨rfl, hb⟩
    exact (hp.outside (x, y) hout).trans (h.pixels x y hx hy fun hb => hout hb.2)
  · exact ⟨w.buffer, (with_cursorShown hshown).symm, h.layout.congr rfl rfl rfl, h.x_eq, h.y_eq,
      fun x y hx hy hbar => h.pixels x y hx hy fun hb => hbar ⟨rfl, hb.2⟩⟩

/-! ## Lines -/

/-- **A new line**, with the cursor erased. -/
theorem newLine (h : Shows ink w t) (hshown : w.cursorShown = false) (hrows : 2 ≤ rows) :
    ∃ buf y, w.newLine = some { w with buffer := buf, xPos := 0, yPos := y } ∧
      Shows ink { w with buffer := buf, xPos := 0, yPos := y } t.lineFeed := by
  have hfit := h.layout.le_rows_iff (t.row + 1 + 1)
  rw [Nat.add_mul, Nat.add_mul, Nat.one_mul, ← h.y_eq] at hfit
  rw [FrameBufferWriter.newLine, Terminal.lineFeed]
  dsimp only
  by_cases hlast : t.row + 1 < rows
  · rw [dif_pos hlast, if_neg (by omega)]
    refine ⟨w.buffer, _, rfl, h.layout.congr rfl rfl rfl, (Nat.zero_mul _).symm, ?_,
      fun x y hx hy _ => h.pixels_of_not_shown hshown hx hy⟩
    show w.yPos + w.cellHeight = (t.row + 1) * w.cellHeight
    rw [h.y_eq, Nat.add_mul, Nat.one_mul]
  · -- the last row: everything moves up by a cell
    rw [dif_neg hlast, if_pos (by omega)]
    have hch := cellHeight_pos h.layout.scale_pos
    have hheight := (h.layout.le_rows_iff 2).mp hrows
    have hwidth := h.layout.width_lt (Nat.mul_pos t.cols_pos (cellWidth_pos h.layout.scale_pos))
    have hlayout : Layout { w with yPos := w.yPos + w.cellHeight, xPos := 0 } rows cols :=
      h.layout.congr rfl rfl rfl
    obtain ⟨buf, hbuf, hread⟩ :=
      hlayout.scrollUp_spec hwidth (show w.cellHeight < w.info.height by omega)
    rw [hbuf]
    refine ⟨buf, w.yPos, ?_, h.layout.congr rfl rfl rfl, (Nat.zero_mul _).symm, h.y_eq,
      fun x y hx hy _ => (hread x y ⟨h.layout.width_lt hx, hy⟩).trans ?_⟩
    · show some _ = some _
      congr 2
      exact Nat.add_sub_cancel _ _
    · rw [pixelOf_scroll h.layout.scale_pos fun _ _ => rfl]
      show (if y + w.cellHeight < w.info.height then w.readPixel x (y + w.cellHeight)
        else some (0, 0, 0)) = some (pixelOf ink t w.scaleFactor x (y + w.cellHeight))
      split_ifs with hy'
      · exact h.pixels_of_not_shown hshown hx hy'
      · rw [pixelOf_of_none]
        refine t.below _ _ ?_
        rw [← h.layout.rows_eq]
        exact Nat.div_le_div_right (not_lt.mp hy')

/-! ## Characters -/

/-- **A character in a cell of the row**: the glyph covers the cell, and a cursor there with it. -/
theorem drawChar (h : Shows ink w t) (hcol : t.col < cols) (hink : ink a = ⟨byte, w.fg, w.bg⟩) :
    ∃ buf, w.drawChar w.xPos w.yPos byte = { w with buffer := buf } ∧
      Shows ink { w with buffer := buf, cursorShown := false, xPos := w.xPos + w.cellWidth }
        (t.write a hcol) := by
  have hp := h.layout.pixelsApart.drawChar_paints w.xPos w.yPos byte
  obtain ⟨buf, hbuf⟩ := hp.frame
  rw [hbuf] at hp
  have hcw := cellWidth_pos h.layout.scale_pos
  have hch := cellHeight_pos h.layout.scale_pos
  refine ⟨buf, hbuf, h.layout.congr rfl rfl rfl, ?_, h.y_eq, fun x y hx hy _ => ?_⟩
  · show w.xPos + w.cellWidth = (t.col + 1) * w.cellWidth
    rw [h.x_eq, Nat.add_mul, Nat.one_mul]
  · have hmem : (x, y) ∈ rect w.xPos w.yPos w.cellWidth w.cellHeight ↔
        x / w.cellWidth = t.col ∧ y / w.cellHeight = t.row := by
      rw [h.x_eq, h.y_eq, mem_rect_cell hcw hch]
    show readPixel { w with buffer := buf } x y =
      some (pixelOf ink (t.write a hcol) w.scaleFactor x y)
    by_cases hcell : x / w.cellWidth = t.col ∧ y / w.cellHeight = t.row
    · have hsub : x - w.xPos = x % w.cellWidth ∧ y - w.yPos = y % w.cellHeight := by
        rw [h.x_eq, h.y_eq, ← hcell.1, ← hcell.2]
        exact ⟨Nat.mod_eq_sub_div_mul.symm, Nat.mod_eq_sub_div_mul.symm⟩
      have hread := hp.inside (x, y) (hmem.mpr hcell)
      rw [h.layout.readPixel_eq ⟨h.layout.width_lt hx, hy⟩] at hread
      rw [hread, pixelOf_of_some (t.cell_write_self hcol hcell.2 hcell.1), hink]
      dsimp only
      rw [Option.map_some, hsub.1, hsub.2]
      rfl
    · have hbar : (x, y) ∉ w.bar := fun hb => hcell (hmem.mp (bar_subset hb))
      rw [hp.outside (x, y) (hmem.not.mpr hcell), h.pixels x y hx hy fun hb => hbar hb.2]
      exact congrArg some
        (pixelOf_congr (Terminal.cell_write_of_ne hcol fun hrc => hcell hrc.symm)).symm

/-- A glyph in the row, and the cursor after it. -/
theorem writeInRow (h : Shows ink w t) (hcol : t.col < cols) (hink : ink a = ⟨byte, w.fg, w.bg⟩) :
    ∃ w', (let v := w.drawChar w.xPos w.yPos byte
        some { v with cursorShown := false, xPos := v.xPos + v.cellWidth }.drawCursor) = some w' ∧
      SamePen w w' ∧ Shows ink w' (t.write a hcol) := by
  obtain ⟨buf, hbuf, hshows⟩ := h.drawChar hcol hink
  obtain ⟨buf', hbuf', hshows'⟩ := hshows.drawCursor
  rw [hbuf]
  exact ⟨_, congrArg some hbuf', ⟨rfl, rfl, rfl, rfl, rfl⟩, hshows'⟩

/-- **A printed character is put on the terminal.** -/
theorem writeGlyph (h : Shows ink w t) (hrows : t.col < cols ∨ 2 ≤ rows)
    (hink : ink a = ⟨byte, w.fg, w.bg⟩) :
    ∃ w', w.writeGlyph byte = some w' ∧ SamePen w w' ∧ Shows ink w' (t.put a) := by
  rw [FrameBufferWriter.writeGlyph, Terminal.put]
  by_cases hcol : t.col < cols
  · rw [if_neg (h.full_iff.not.mpr (not_not.mpr hcol)), dif_pos hcol]
    exact h.writeInRow hcol hink
  · -- the cursor waits behind the row, where its bar is off the grid
    obtain ⟨buf, hbuf, herased⟩ := h.eraseCursor (h.cursorClear_of_full hcol)
    obtain ⟨buf', y, hline, hshows⟩ := herased.newLine rfl (hrows.resolve_left hcol)
    rw [if_pos (h.full_iff.mpr hcol), dif_neg hcol, hbuf, hline]
    obtain ⟨w', hw', hpen, hshows'⟩ := hshows.writeInRow
      (Terminal.col_lineFeed.trans_lt t.cols_pos) (show ink a = ⟨byte, w.fg, w.bg⟩ from hink)
    exact ⟨w', hw', ⟨hpen.fg, hpen.bg, hpen.escape, hpen.scale, hpen.info⟩, hshows'⟩

/-! ## Bytes -/

/-- **A printed byte.** -/
theorem writeByte_print (h : Shows ink w t) (byte : UInt8) (hrows : t.col < cols ∨ 2 ≤ rows)
    (hstate : w.escapeState = .normal) (hbyte : byte ≠ 0x1b ∧ byte ≠ 0x0a ∧ byte ≠ 0x08)
    (hink : ink a = ⟨byte, w.fg, w.bg⟩) :
    ∃ w', w.writeByte byte = some w' ∧ SamePen w w' ∧ Shows ink w' (t.put a) := by
  rw [writeByte, hstate]
  dsimp only
  rw [if_neg hbyte.1, if_neg hbyte.2.1, if_neg hbyte.2.2]
  exact h.writeGlyph hrows hink

/-- **A newline.** -/
theorem writeByte_newline (h : Shows ink w t) (hclear : CursorClear ink w t) (hrows : 2 ≤ rows)
    (hstate : w.escapeState = .normal) :
    ∃ w', w.writeByte 0x0a = some w' ∧ SamePen w w' ∧ Shows ink w' t.lineFeed := by
  obtain ⟨buf, hbuf, herased⟩ := h.eraseCursor hclear
  obtain ⟨buf', y, hline, hshows⟩ := herased.newLine rfl hrows
  obtain ⟨buf'', hbuf'', hshows'⟩ := hshows.drawCursor
  rw [writeByte, hstate]
  dsimp only
  rw [if_neg (by decide), if_pos rfl, hbuf, hline]
  exact ⟨_, congrArg some hbuf'', ⟨rfl, rfl, rfl, rfl, rfl⟩, hshows'⟩

/-- **A backspace byte** moves the cursor within its row. -/
theorem writeByte_back (h : Shows ink w t) (hclear : CursorClear ink w t)
    (hstate : w.escapeState = .normal) :
    ∃ w', w.writeByte 0x08 = some w' ∧ SamePen w w' ∧ Shows ink w' t.back := by
  obtain ⟨buf, hbuf, herased⟩ := h.eraseCursor hclear
  have hmove : Shows ink { w with
      buffer := buf, cursorShown := false, xPos := w.xPos - w.cellWidth } t.back := by
    refine ⟨herased.layout.congr rfl rfl rfl, ?_, herased.y_eq, fun x y hx hy _ =>
      herased.pixels_of_not_shown rfl hx hy⟩
    show w.xPos - w.cellWidth = (t.col - 1) * w.cellWidth
    rw [h.x_eq, Nat.sub_mul, Nat.one_mul]
  have hif : (if w.xPos ≥ w.cellWidth then
        { w with buffer := buf, cursorShown := false, xPos := w.xPos - w.cellWidth }
      else { w with buffer := buf, cursorShown := false }) =
      { w with buffer := buf, cursorShown := false, xPos := w.xPos - w.cellWidth } := by
    split_ifs with hx
    · rfl
    · -- the cursor is in column 0
      have hcol : t.col = 0 := by
        by_contra hne
        have := Nat.mul_le_mul_right w.cellWidth (Nat.one_le_iff_ne_zero.mpr hne)
        rw [← h.x_eq] at this
        omega
      have hx0 : w.xPos = 0 := by rw [h.x_eq, hcol, Nat.zero_mul]
      rw [hx0, Nat.zero_sub]
  obtain ⟨buf', hbuf', hshows⟩ := hmove.drawCursor
  rw [writeByte, hstate]
  dsimp only
  rw [if_neg (by decide), if_neg (by decide), if_pos rfl, hbuf]
  exact ⟨_, congrArg some ((congrArg _ hif).trans hbuf'), ⟨rfl, rfl, rfl, rfl, rfl⟩, hshows⟩

end Shows

/-! ## A cleared screen -/

theorem Geometry.clearScreen_frame (h : Geometry w) : ∃ buf, w.clearScreen =
    { w with buffer := buf, xPos := 0, yPos := 0, cursorShown := true } := by
  have hcleared : Geometry { w with
      buffer := fun i => if i < w.bufferLen then 0 else w.buffer i
      xPos := 0, yPos := 0, cursorShown := false } := ⟨h.bpp, h.stride, h.len⟩
  obtain ⟨buf, hbuf⟩ := (hcleared.pixelsApart.paintCursor_paints w.fg).frame
  refine ⟨buf, ?_⟩
  rw [clearScreen, drawCursor, if_neg Bool.false_ne_true]
  dsimp only
  rw [hbuf]

/-- **A cleared screen shows the blank terminal.** -/
theorem Layout.shows_clearScreen (h : Layout w rows cols) (hrows : 0 < rows) (hcols : 0 < cols) :
    Shows ink w.clearScreen (Terminal.blank hrows hcols) := by
  have hlayout : Layout { w with
      buffer := fun i => if i < w.bufferLen then 0 else w.buffer i
      xPos := 0, yPos := 0, cursorShown := false } rows cols := h.congr rfl rfl rfl
  have hshows : Shows ink { w with
      buffer := fun i => if i < w.bufferLen then 0 else w.buffer i
      xPos := 0, yPos := 0, cursorShown := false } (Terminal.blank hrows hcols) := by
    refine ⟨hlayout, (Nat.zero_mul _).symm, (Nat.zero_mul _).symm, fun x y hx hy _ => ?_⟩
    rw [hlayout.readPixel_of_zero (fun i hi => if_pos hi) ⟨h.width_lt hx, hy⟩, pixelOf_of_none rfl]
  obtain ⟨buf, hbuf, hshows'⟩ := hshows.drawCursor
  rw [clearScreen, hbuf]
  exact hshows'

end FrameBufferWriter

end YontiOs.Framebuffer
