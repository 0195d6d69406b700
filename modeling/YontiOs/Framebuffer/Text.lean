import YontiOs.Framebuffer.Screen

/-!
# Framebuffer/Text — text on a fresh screen

Text in the default colors is kept by what a terminal has in its cells: a newline is a line feed,
any other character is put (`typed`).  Nothing is written after the cursor (`Terminal.Fresh`), so
the bar of the cursor is always over a black cell and leaves no trace when it is erased
(`Plain.writeByte`).  From there the screen shows the terminal's text at every scale
(`screen_shows_text`).
-/

namespace YontiOs.Framebuffer

variable {rows cols : ℕ} {t : Terminal rows cols UInt8} {w w' : FrameBufferWriter} {byte : UInt8}

/-- A character in the default colors. -/
def plain (byte : UInt8) : Ink := ⟨byte, (170, 170, 170), (0, 0, 0)⟩

/-- One character of text at a terminal. -/
def typed (t : Terminal rows cols UInt8) (byte : UInt8) : Terminal rows cols UInt8 :=
  if byte = 0x0a then t.lineFeed else t.put byte

/-- A character or a newline. -/
def IsText (byte : UInt8) : Prop := (0x20 ≤ byte ∧ byte ≤ 0x7e) ∨ byte = 0x0a

namespace FrameBufferWriter

/-- A new writer at scale `s`, with a cleared screen. -/
def fresh (buffer : ℕ → UInt8) (bufferLen : ℕ) (info : FrameBufferInfo) (s : ℕ) :
    FrameBufferWriter :=
  ((fun w => w.scaleUp.2)^[s - 1] (new buffer bufferLen info)).clearScreen

/-- Default colors, and no escape sequence under way. -/
structure PlainPen (w : FrameBufferWriter) : Prop where
  fg : w.fg = (170, 170, 170)
  bg : w.bg = (0, 0, 0)
  escape : w.escapeState = .normal

theorem PlainPen.congr (h : PlainPen w) (hpen : SamePen w w') : PlainPen w' :=
  ⟨hpen.fg.trans h.fg, hpen.bg.trans h.bg, hpen.escape.trans h.escape⟩

/-- **The writer shows text**, with nothing after the cursor. -/
structure Plain (w : FrameBufferWriter) (t : Terminal rows cols UInt8) : Prop where
  shows : Shows plain w t
  pen : PlainPen w
  fresh : t.Fresh

namespace Plain

/-- The cell of the cursor is blank. -/
theorem cursorClear (h : Plain w t) : CursorClear plain w t := by
  intro x y _ hbar
  have hcell := bar_subset hbar
  rw [h.shows.x_eq, h.shows.y_eq, mem_rect_cell (cellWidth_pos h.shows.layout.scale_pos)
    (cellHeight_pos h.shows.layout.scale_pos)] at hcell
  rw [h.pen.bg]
  exact pixelOf_of_none (h.fresh _ _ (.inr ⟨hcell.2.symm, hcell.1.symm.le⟩))

/-- **One character.** -/
theorem writeByte (h : Plain w t) (hrows : 2 ≤ rows) (hbyte : IsText byte) :
    ∃ w', w.writeByte (sent byte) = some w' ∧ SamePen w w' ∧ Plain w' (typed t byte) := by
  rw [typed]
  split_ifs with hnl
  · rw [hnl]
    obtain ⟨w', hw', hpen, hshows⟩ :=
      h.shows.writeByte_newline h.cursorClear hrows h.pen.escape
    exact ⟨w', hw', hpen, hshows, h.pen.congr hpen, h.fresh.lineFeed⟩
  · have hrange := hbyte.resolve_right hnl
    have hink : plain byte = ⟨byte, w.fg, w.bg⟩ := by rw [h.pen.fg, h.pen.bg, plain]
    have hne : byte ≠ 0x1b ∧ byte ≠ 0x0a ∧ byte ≠ 0x08 := by
      refine ⟨?_, hnl, ?_⟩ <;> rintro rfl <;> exact absurd hrange.1 (by decide)
    obtain ⟨w', hw', hpen, hshows⟩ :=
      h.shows.writeByte_print byte (.inr hrows) h.pen.escape hne hink
    rw [sent, if_pos (.inl hrange)]
    exact ⟨w', hw', hpen, hshows, h.pen.congr hpen, h.fresh.put⟩

/-- **A text**, character by character. -/
theorem writeString (h : Plain w t) (hrows : 2 ≤ rows) {text : List UInt8}
    (htext : ∀ byte ∈ text, IsText byte) :
    ∃ w', w.writeString text = some w' ∧ SamePen w w' ∧ Plain w' (text.foldl typed t) := by
  induction text generalizing w t with
  | nil => exact ⟨w, rfl, ⟨rfl, rfl, rfl, rfl, rfl⟩, h⟩
  | cons byte text ih =>
    obtain ⟨w₁, hw₁, hpen₁, h₁⟩ := h.writeByte hrows (htext byte List.mem_cons_self)
    obtain ⟨w', hw', hpen, h'⟩ := ih h₁ fun b hb => htext b (List.mem_cons_of_mem _ hb)
    refine ⟨w', ?_, hpen₁.trans hpen, h'⟩
    rw [FrameBufferWriter.writeString, List.foldlM_cons, hw₁]
    exact hw'

end Plain

/-! ## The fresh writer -/

/-- Growing the scale keeps the rest of a new writer. -/
theorem scaleUp_iterate {buffer : ℕ → UInt8} {bufferLen : ℕ} {info : FrameBufferInfo}
    (h : Geometry (new buffer bufferLen info)) {n : ℕ} (hn : n < maxScale) :
    ∃ buf shown, (fun w => w.scaleUp.2)^[n] (new buffer bufferLen info) =
      { new buf bufferLen info with scaleFactor := n + 1, cursorShown := shown } := by
  induction n with
  | zero => exact ⟨buffer, false, rfl⟩
  | succ n ih =>
    obtain ⟨buf, shown, hiter⟩ := ih (Nat.lt_of_succ_lt hn)
    have hgeometry : Geometry { new buf bufferLen info with
        scaleFactor := n + 1 + 1, cursorShown := shown } := ⟨h.bpp, h.stride, h.len⟩
    obtain ⟨buf', hbuf'⟩ := hgeometry.clearScreen_frame
    refine ⟨buf', true, ?_⟩
    rw [Function.iterate_succ_apply', hiter, scaleUp, if_neg (not_le.mpr hn)]
    exact hbuf'

section Fresh

variable {buffer : ℕ → UInt8} {bufferLen : ℕ} {info : FrameBufferInfo} {s : ℕ}

theorem rows_pos (hs : 1 ≤ s) (hheight : 32 * s ≤ info.height) :
    0 < info.height / (charHeight * s) :=
  Nat.div_pos (by rw [charHeight]; omega) (Nat.mul_pos (by decide) hs)

theorem cols_pos (hs : 1 ≤ s) (hwidth : 8 * s ≤ info.width) : 0 < info.width / (charWidth * s) :=
  Nat.div_pos hwidth (Nat.mul_pos (by decide) hs)

/-- **A fresh writer** is at its scale and shows a blank terminal. -/
theorem shows_fresh {α : Type*} (ink : α → Ink) (h : Geometry (new buffer bufferLen info))
    (hs : 1 ≤ s) (hs' : s ≤ maxScale)
    (hrows : 0 < info.height / (charHeight * s)) (hcols : 0 < info.width / (charWidth * s)) :
    (fresh buffer bufferLen info s).info = info ∧ (fresh buffer bufferLen info s).scaleFactor = s ∧
      Shows ink (fresh buffer bufferLen info s) (Terminal.blank hrows hcols) ∧
      PlainPen (fresh buffer bufferLen info s) := by
  obtain ⟨buf, shown, hiter⟩ := scaleUp_iterate h (n := s - 1) (by omega)
  rw [Nat.sub_add_cancel hs] at hiter
  have hlayout : Layout { new buf bufferLen info with scaleFactor := s, cursorShown := shown }
      (info.height / (charHeight * s)) (info.width / (charWidth * s)) :=
    ⟨⟨h.bpp, h.stride, h.len⟩, hs, rfl, rfl⟩
  have hshows : Shows ink _ _ := hlayout.shows_clearScreen hrows hcols
  obtain ⟨buf', hbuf'⟩ := hlayout.clearScreen_frame
  rw [fresh, hiter]
  refine ⟨by rw [hbuf']; rfl, by rw [hbuf'], hshows, ?_⟩
  rw [hbuf']
  exact ⟨rfl, rfl, rfl⟩

/-- **The framebuffer refines a character terminal.**  Any text on a fresh writer is drawn without a
fault, and every cell but the cursor's shows the enlarged glyph that the terminal has there, or is
black where the terminal has none. -/
theorem screen_shows_text (hbpp : 3 ≤ info.bytesPerPixel) (hstride : info.width ≤ info.stride)
    (hlen : info.height * info.stride * info.bytesPerPixel ≤ bufferLen) (hs : 1 ≤ s) (hs' : s ≤ 4)
    (hwidth : 8 * s ≤ info.width) (hheight : 32 * s ≤ info.height) (text : List UInt8)
    (htext : ∀ byte ∈ text, IsText byte) :
    ∃ w, (fresh buffer bufferLen info s).writeString text = some w ∧
      ∀ r < info.height / (charHeight * s), ∀ c < info.width / (charWidth * s),
        (c * (charWidth * s), r * (charHeight * s)) ≠ w.cursorPosition →
          ∀ dy < charHeight * s, ∀ dx < charWidth * s,
            w.readPixel (c * (charWidth * s) + dx) (r * (charHeight * s) + dy) =
              some (cellColor plain ((text.foldl typed
                (Terminal.blank (rows_pos hs hheight) (cols_pos hs hwidth))).cell r c)
              (dy / s) (dx / s)) := by
  obtain ⟨hinfo, hscale, hshows, hpen₀⟩ := shows_fresh plain
    (show Geometry (new buffer bufferLen info) from ⟨hbpp, hstride, hlen⟩) hs hs'
      (rows_pos hs hheight) (cols_pos hs hwidth)
  have hblank : Plain (fresh buffer bufferLen info s) (Terminal.blank (rows_pos hs hheight)
    (cols_pos hs hwidth)) := ⟨hshows, hpen₀, Terminal.fresh_blank _ _⟩
  have hrows : 2 ≤ info.height / (charHeight * s) := by
    rw [Nat.le_div_iff_mul_le (Nat.mul_pos (by decide) hs), charHeight]
    omega
  obtain ⟨w, hw, hpen, h⟩ := hblank.writeString hrows htext
  refine ⟨w, hw, fun r hr c hc hcursor dy hdy dx hdx => ?_⟩
  have hscale' : w.scaleFactor = s := hpen.scale.trans hscale
  subst hscale'
  refine h.shows.readPixel_cell hr hc hdy hdx fun hb => hcursor ?_
  rw [cursorPosition, h.shows.x_eq, h.shows.y_eq, hb.1, hb.2.1]
  rfl

/-- Five letters on a screen of two rows and two columns: the third starts a new row, and the fifth
scrolls, so the third is now in the first cell. -/
theorem screen_shows_text_scrolled :
    ∃ w, (fresh (fun _ => 0xff) 1536 ⟨16, 32, .bgr, 3, 16⟩ 1).writeString
        [0x41, 0x42, 0x43, 0x44, 0x45] = some w ∧
      ∀ dy < 16, ∀ dx < 8, w.readPixel dx dy = some ((plain 0x43).color dy dx) := by
  have hcursor : ((fresh (fun _ => 0xff) 1536 ⟨16, 32, .bgr, 3, 16⟩ 1).writeString
      [0x41, 0x42, 0x43, 0x44, 0x45]).map cursorPosition = some (8, 16) := by decide +kernel
  have htext : ∀ byte ∈ ([0x41, 0x42, 0x43, 0x44, 0x45] : List UInt8),
      0x20 ≤ byte ∧ byte ≤ 0x7e := by decide +kernel
  obtain ⟨w, hw, h⟩ := @screen_shows_text (fun _ => 0xff) 1536 ⟨16, 32, .bgr, 3, 16⟩ 1
    (by decide) (by decide) (by norm_num) (by decide) (by decide) (by decide) (by decide)
    [0x41, 0x42, 0x43, 0x44, 0x45] fun byte hbyte => .inl (htext byte hbyte)
  rw [hw, Option.map_some, Option.some.injEq] at hcursor
  refine ⟨w, hw, fun dy hdy dx hdx => ?_⟩
  have hread := h 0 (by decide) 0 (by decide) (by rw [hcursor]; decide) dy hdy dx hdx
  rw [Nat.zero_mul, Nat.zero_add, Nat.zero_mul, Nat.zero_add, Nat.div_one, Nat.div_one] at hread
  exact hread

end Fresh

end FrameBufferWriter

end YontiOs.Framebuffer
