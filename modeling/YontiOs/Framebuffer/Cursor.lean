import YontiOs.Framebuffer.Offsets

/-!
# Framebuffer/Cursor — where the cursor can be, and that nothing panics

`Inv` holds of the writer after any calls: the cursor is on the grid of cells at most one cell off
the screen, and the collected escape sequence fits its buffer.  It is what the checks of `Machine`
need, so every method gives there what it computes over the natural numbers (`Keeps`), up to sums
and products that do not fit `usize`.  These need sizes that no framebuffer has (`Fits`).
-/

namespace YontiOs.Framebuffer

open Checked (Gives bind_eq_ok fit_eq_ok steps_of_forRange)

variable {w w' : FrameBufferWriter} {x y n : ℕ} {byte : UInt8}

/-- **The sizes fit `usize`**: the offset of every pixel, the bytes of a row of cells, and every
position up to a cell beyond the screen. -/
structure Fits (info : FrameBufferInfo) : Prop where
  width : info.width + charWidth * maxScale < 2 ^ 64
  height : info.height + charHeight * maxScale < 2 ^ 64
  pixels : info.height * info.stride + info.width < 2 ^ 64
  bytes : (info.height * info.stride + info.width) * info.bytesPerPixel + 2 < 2 ^ 64
  row : info.stride * info.bytesPerPixel * (charHeight * maxScale) < 2 ^ 64

theorem Fits.pixelFits (h : Fits w.info) (x y : ℕ) : w.PixelFits x y := fun hon => by
  have hline : y * w.info.stride ≤ w.info.height * w.info.stride :=
    Nat.mul_le_mul_right _ hon.2.le
  have hx := hon.1
  have hoffset : w.offset x y ≤
      (w.info.height * w.info.stride + w.info.width) * w.info.bytesPerPixel :=
    Nat.mul_le_mul_right _ (by omega)
  have hpixels := h.pixels
  have hbytes := h.bytes
  omega

/-! ## Drawing -/

/-- The machine does to the buffer what the writer does, where `g` holds, and to nothing else. -/
structure Draws (g : Prop) (w : FrameBufferWriter) (c : Checked FrameBufferWriter)
    (w' : FrameBufferWriter) : Prop where
  gives : Gives g c w'
  frame : ∃ buf, w' = { w with buffer := buf }

namespace Draws

variable {g : Prop}

theorem bind {α : Type} {c : Checked α} {f : α → Checked FrameBufferWriter} {a : α}
    (h : Gives g c a) (hf : Draws g w (f a) w') : Draws g w (c >>= f) w' :=
  ⟨h.bind hf.gives, hf.frame⟩

/-- **A loop that draws**, step by step. -/
theorem forRange {f : FrameBufferWriter → ℕ → Checked FrameBufferWriter}
    {h : FrameBufferWriter → ℕ → FrameBufferWriter}
    (hstep : ∀ i < n, ∀ buf, Draws g { w with buffer := buf } (f { w with buffer := buf } i)
      (h { w with buffer := buf } i)) :
    Draws g w (Checked.forRange n f w) (w.forRange n h) := by
  obtain ⟨hgives, hframe⟩ := Gives.forRange (g := g) (f := f) (h := h) (n := n) (s := w)
    (fun w' => ∃ buf, w' = { w with buffer := buf }) ⟨w.buffer, rfl⟩ (by
      rintro i hi _ ⟨buf, rfl⟩
      obtain ⟨hgives, buf', hbuf'⟩ := hstep i hi buf
      exact ⟨hgives, buf', hbuf'⟩)
  exact ⟨hgives, hframe⟩

theorem writePixel (hfits : g → w.PixelFits x y) (r' g' b' : UInt8) :
    Draws g w (Machine.writePixel w x y r' g' b') (w.writePixel x y r' g' b') := by
  refine ⟨?_, w.writePixel_frame x y r' g' b'⟩
  rw [Machine.writePixel_eq]
  split_ifs with h
  · exact .pure _
  · exact .inr ⟨fun hg => h (hfits hg), rfl⟩

end Draws

/-- **`draw_char`**, at a place where the cell fits `usize`. -/
theorem drawChar_draws (c : UInt8) (hx : Fits w.info → x + w.cellWidth < 2 ^ 64)
    (hy : Fits w.info → y + w.cellHeight < 2 ^ 64) :
    Draws (Fits w.info) w (Machine.drawChar w x y c) (w.drawChar x y c) := by
  have hglyph : ∀ {row}, row < charHeight → glyphIdx c * charHeight + row < 1536 := fun hrow => by
    have := glyph_lt c hrow
    rwa [length_fontBasic] at this
  refine .bind (a := glyphIdx c) (Gives.ite (fun h => .sub h.1) fun _ => .pure _) ?_
  refine .bind (Gives.mul fun _ => by have := hglyph (show 0 < charHeight by decide); omega) ?_
  refine Draws.forRange fun row hrow buf => ?_
  have hbyte : fontBasic[glyphIdx c * charHeight + row]? = some (glyphByte c row) := by
    rw [glyphByte, List.getD_eq_getElem?_getD, List.getElem?_eq_getElem (glyph_lt c hrow)]
    rfl
  refine .bind (Gives.add fun _ => by have := hglyph hrow; omega) ?_
  refine .bind (Gives.index hbyte) ?_
  refine Draws.forRange fun col hcol buf => ?_
  refine .bind (Gives.sub (show col ≤ 7 from Nat.le_of_lt_succ hcol)) ?_
  refine Draws.forRange fun sy hsy buf => Draws.forRange fun sx hsx buf => ?_
  have hcell : col * w.scaleFactor + sx < w.cellWidth := Grid.lt hcol hsx
  have hcell' : row * w.scaleFactor + sy < w.cellHeight := Grid.lt hrow hsy
  refine .bind (Gives.mul fun h => by have := hx h; omega) ?_
  refine .bind (Gives.add fun h => by have := hx h; omega) ?_
  refine .bind (Gives.add fun h => by have := hx h; omega) ?_
  refine .bind (Gives.mul fun h => by have := hy h; omega) ?_
  refine .bind (Gives.add fun h => by have := hy h; omega) ?_
  refine .bind (Gives.add fun h => by have := hy h; omega) ?_
  exact .writePixel (fun h => h.pixelFits _ _) _ _ _

/-! ## The bar of the cursor -/

namespace FrameBufferWriter

/-- What is computed for the bar of the cursor fits `usize`: its corner, and the offsets of its
pixels on the screen. -/
structure BarFits (w : FrameBufferWriter) : Prop where
  bottom : w.yPos + w.cellHeight < 2 ^ 64
  right : ∀ x < w.cellWidth, w.xPos + x < 2 ^ 64
  pixels : ∀ q ∈ w.bar, w.PixelFits q.1 q.2

theorem cursorHeight_le (w : FrameBufferWriter) : cursorHeight * w.scaleFactor ≤ w.cellHeight :=
  Nat.mul_le_mul_right _ (by decide)

theorem cellWidth_le_cellHeight (w : FrameBufferWriter) : w.cellWidth ≤ w.cellHeight :=
  Nat.mul_le_mul_right _ (by decide)

/-- **The bar is painted** where it fits. -/
theorem paintCursor_draws {g : Prop} (hg : g → w.BarFits) (color : Color) :
    Draws g w (Machine.paintCursor w color) (w.paintCursor color) := by
  have hcursor := w.cursorHeight_le
  have hcell := w.cellWidth_le_cellHeight
  refine .bind (a := w.cellWidth) (Gives.mul fun h => ?_) ?_
  · have := (hg h).bottom
    show w.cellWidth < 2 ^ 64
    omega
  refine .bind (a := w.cellHeight) (Gives.mul fun h => ?_) ?_
  · have := (hg h).bottom
    show w.cellHeight < 2 ^ 64
    omega
  refine .bind (Gives.mul fun h => by have := (hg h).bottom; omega) ?_
  refine .bind (Gives.add fun h => (hg h).bottom) ?_
  refine .bind (Gives.sub (by omega)) ?_
  refine Draws.forRange fun y hy buf => Draws.forRange fun x hx buf => ?_
  refine .bind (Gives.add fun h => (hg h).right x hx) ?_
  refine .bind (Gives.add fun h => by have := (hg h).bottom; omega) ?_
  have hpixel : g → w.PixelFits (w.xPos + x)
      (w.yPos + w.cellHeight - cursorHeight * w.scaleFactor + y) := fun h =>
    (hg h).pixels _ (mem_bar.mpr ⟨y, hy, x, hx, rfl⟩)
  exact Draws.writePixel (w := { w with buffer := buf }) hpixel _ _ _

/-- A pixel of the bar that is written has an offset that fits, and only the buffer changes. -/
theorem fits_of_barPixel {t : FrameBufferWriter} {cursorY : ℕ} {color : Color} {buf : ℕ → UInt8}
    (h : (do
      let px ← Checked.add w.xPos x
      let py ← Checked.add cursorY y
      Machine.writePixel { w with buffer := buf } px py color.1 color.2.1 color.2.2) = .ok t) :
    (∃ buf, t = { w with buffer := buf }) ∧ w.xPos + x < 2 ^ 64 ∧
      w.PixelFits (w.xPos + x) (cursorY + y) := by
  obtain ⟨px, hpx, h⟩ := bind_eq_ok.mp h
  obtain ⟨hx, rfl⟩ := fit_eq_ok.mp hpx
  obtain ⟨py, hpy, h⟩ := bind_eq_ok.mp h
  obtain ⟨-, rfl⟩ := fit_eq_ok.mp hpy
  rw [Machine.writePixel_eq] at h
  split_ifs at h with hfits
  obtain rfl := Except.ok.inj h
  obtain ⟨buf', hbuf'⟩ := writePixel_frame { w with buffer := buf } (w.xPos + x) (cursorY + y)
    color.1 color.2.1 color.2.2
  exact ⟨⟨buf', hbuf'⟩, hx, hfits⟩

/-- **It is painted only there**: each pixel of the bar is written. -/
theorem barFits_of_paintCursor {color : Color} {v : FrameBufferWriter}
    (h : Machine.paintCursor w color = .ok v) : w.BarFits := by
  have hcursor := w.cursorHeight_le
  obtain ⟨cw, hcw, h⟩ := bind_eq_ok.mp h
  obtain ⟨-, rfl⟩ := fit_eq_ok.mp hcw
  obtain ⟨ch, hch, h⟩ := bind_eq_ok.mp h
  obtain ⟨-, rfl⟩ := fit_eq_ok.mp hch
  obtain ⟨cursorH, hcursorH, h⟩ := bind_eq_ok.mp h
  obtain ⟨-, rfl⟩ := fit_eq_ok.mp hcursorH
  obtain ⟨bottom, hsum, h⟩ := bind_eq_ok.mp h
  obtain ⟨hbottom, rfl⟩ := fit_eq_ok.mp hsum
  obtain ⟨cursorY, hcursorY, h⟩ := bind_eq_ok.mp h
  have hle : cursorHeight * w.scaleFactor ≤ w.yPos + charHeight * w.scaleFactor :=
    hcursor.trans (Nat.le_add_left _ _)
  rw [Checked.sub, if_pos hle] at hcursorY
  obtain rfl := Except.ok.inj hcursorY
  have hrows := (steps_of_forRange (fun t => ∃ buf, t = { w with buffer := buf }) ⟨w.buffer, rfl⟩
    (by
      rintro j - _ t' ⟨buf, rfl⟩ hrow
      refine (steps_of_forRange (fun t => ∃ buf, t = { w with buffer := buf }) ⟨buf, rfl⟩ ?_ hrow).1
      rintro i - _ t' ⟨buf, rfl⟩ ht
      exact (fits_of_barPixel ht).1) h).2
  have hpixels : ∀ j < cursorHeight * w.scaleFactor, ∀ i < w.cellWidth,
      w.xPos + i < 2 ^ 64 ∧ w.PixelFits (w.xPos + i)
        (w.yPos + w.cellHeight - cursorHeight * w.scaleFactor + j) := by
    intro j hj i hi
    obtain ⟨_, t, ⟨buf, rfl⟩, hrow⟩ := hrows j hj
    obtain ⟨_, t', ⟨buf', rfl⟩, ht⟩ := (steps_of_forRange
      (fun t => ∃ buf, t = { w with buffer := buf }) ⟨buf, rfl⟩ (by
        rintro i - _ t' ⟨buf, rfl⟩ ht
        exact (fits_of_barPixel ht).1) hrow).2 i hi
    exact (fits_of_barPixel ht).2
  refine ⟨hbottom, fun x hx => (hpixels 0 ?_ x hx).1, fun q hq => ?_⟩
  · rw [cellWidth] at hx
    exact Nat.mul_pos (by decide) (Nat.pos_of_mul_pos_left (Nat.zero_lt_of_lt hx))
  · obtain ⟨j, hj, i, hi, rfl⟩ := mem_bar.mp hq
    exact (hpixels j hj i hi).2

end FrameBufferWriter

/-! ## Where the cursor can be -/

/-- **The cursor is on the grid of cells**: in its row it is behind the last cell at most, or behind
the first one where the screen has none, and its row is a whole one where the screen has any. -/
structure Placed (info : FrameBufferInfo) (cw ch x y : ℕ) : Prop where
  x_dvd : cw ∣ x
  x_le : x ≤ max info.width cw
  y_dvd : ch ∣ y
  y_le : ch ≤ info.height → y + ch ≤ info.height
  y_zero : info.height < ch → y = 0

namespace FrameBufferWriter

/-- What does not depend on the cursor. -/
structure Steady (w : FrameBufferWriter) : Prop where
  room : w.info.height * w.info.stride * w.info.bytesPerPixel ≤ w.bufferLen
  scale : minScale ≤ w.scaleFactor ∧ w.scaleFactor ≤ maxScale
  csiPos_le : w.csiPos ≤ 8
  csiPos_pos : w.escapeState = .inCsi → 1 ≤ w.csiPos

/-- **What holds of the writer after any calls.** -/
structure Inv (w : FrameBufferWriter) : Prop extends Steady w where
  placed : Placed w.info w.cellWidth w.cellHeight w.xPos w.yPos

/-- The machine does what the writer does, which keeps the invariant. -/
def Keeps (w : FrameBufferWriter) (o : Option FrameBufferWriter) (c : Checked FrameBufferWriter) :
    Prop :=
  ∃ w', o = some w' ∧ (w'.Inv ∧ w'.info = w.info) ∧ Gives (Fits w.info) c w'

theorem Keeps.of_ok (hinv : w'.Inv) (hinfo : w'.info = w.info) : Keeps w (some w') (.ok w') :=
  ⟨w', rfl, ⟨hinv, hinfo⟩, .pure w'⟩

theorem Keeps.bind {α : Type} {o : Option FrameBufferWriter} {c : Checked α}
    {f : α → Checked FrameBufferWriter} {a : α} (hc : Gives (Fits w.info) c a)
    (h : Keeps w o (f a)) : Keeps w o (c >>= f) := by
  obtain ⟨v, hv, hkeep, hgives⟩ := h
  exact ⟨v, hv, hkeep, hc.bind hgives⟩

/-- **A run of steps that keep the invariant.** -/
theorem Keeps.foldlM {ι : Type} {f : FrameBufferWriter → ι → Option FrameBufferWriter}
    {c : FrameBufferWriter → ι → Checked FrameBufferWriter}
    (hstep : ∀ v i, v.Inv → Keeps v (f v i) (c v i)) (h : w.Inv) (is : List ι) :
    Keeps w (is.foldlM f w) (is.foldlM c w) := by
  refine Gives.foldlM (fun v : FrameBufferWriter => v.Inv ∧ v.info = w.info) ⟨h, rfl⟩ ?_
  intro v i hv
  obtain ⟨v', hv', hkeep, hgives⟩ := hstep v i hv.1
  rw [hv.2] at hkeep hgives
  exact ⟨v', hv', hkeep, hgives⟩

namespace Steady

variable (h : Steady w)
include h

theorem cellWidth_le : w.cellWidth ≤ charWidth * maxScale := Nat.mul_le_mul_left _ h.scale.2

theorem cellHeight_le : w.cellHeight ≤ charHeight * maxScale := Nat.mul_le_mul_left _ h.scale.2

theorem cellWidth_gives {g : Prop} : Gives g (Machine.cellWidth w) w.cellWidth :=
  .mul fun _ => h.cellWidth_le.trans_lt (by decide)

theorem cellHeight_gives {g : Prop} : Gives g (Machine.cellHeight w) w.cellHeight :=
  .mul fun _ => h.cellHeight_le.trans_lt (by decide)

/-- The cursor may be put anywhere on the grid. -/
theorem moved {buf : ℕ → UInt8} {shown : Bool}
    (hplaced : Placed w.info w.cellWidth w.cellHeight x y) :
    Inv { w with buffer := buf, cursorShown := shown, xPos := x, yPos := y } :=
  ⟨⟨h.room, h.scale, h.csiPos_le, h.csiPos_pos⟩, hplaced⟩

theorem scrollBy_gives : ∃ buf, w.scrollUp = some { w with buffer := buf } ∧
    Gives (Fits w.info) (Machine.scrollBy w (w.info.stride * w.info.bytesPerPixel * w.cellHeight)
      (w.info.height * w.info.stride * w.info.bytesPerPixel)) { w with buffer := buf } := by
  rw [Machine.scrollBy]
  by_cases hle : w.info.height * w.info.stride * w.info.bytesPerPixel ≤
      w.info.stride * w.info.bytesPerPixel * w.cellHeight
  · refine ⟨w.buffer, if_pos hle, ?_⟩
    rw [if_pos hle]
    exact .pure w
  · obtain ⟨buf, hbuf, -⟩ := scrollUp_eq rfl rfl (not_le.mp hle) h.room
    refine ⟨buf, hbuf, ?_⟩
    rw [scrollUp, if_neg hle] at hbuf
    rw [if_neg hle]
    obtain ⟨v, hv, hbuf⟩ := Option.bind_eq_some_iff.mp hbuf
    exact (Gives.index hv).bind ((Gives.sub (not_le.mp hle).le).bind (Gives.index hbuf))

/-- **`scroll_up`** finds both slices of the buffer. -/
theorem scrollUp_gives : ∃ buf, w.scrollUp = some { w with buffer := buf } ∧
    Gives (Fits w.info) (Machine.scrollUp w) { w with buffer := buf } := by
  obtain ⟨buf, hbuf, hscroll⟩ := h.scrollBy_gives
  refine ⟨buf, hbuf, ?_⟩
  have hrow : w.info.stride * w.info.bytesPerPixel * w.cellHeight ≤
      w.info.stride * w.info.bytesPerPixel * (charHeight * maxScale) :=
    Nat.mul_le_mul_left _ h.cellHeight_le
  refine h.cellHeight_gives.bind ?_
  refine (Gives.mul fun hfits => ?_).bind ?_
  · have := hfits.row
    simp only [charHeight, maxScale] at this
    omega
  · refine (Gives.mul fun hfits => hrow.trans_lt hfits.row).bind ?_
    refine (Gives.mul fun hfits => by have := hfits.pixels; omega).bind ?_
    refine (Gives.mul fun hfits => ?_).bind hscroll
    have hbytes := hfits.bytes
    rw [Nat.add_mul] at hbytes
    omega

end Steady

namespace Inv

variable (h : w.Inv)
include h

/-- The positions the methods compute with fit `usize`. -/
theorem right_lt (hfits : Fits w.info) : w.xPos + w.cellWidth < 2 ^ 64 := by
  have hx := h.placed.x_le
  have hcell := h.cellWidth_le
  have hwidth := hfits.width
  simp only [charWidth, maxScale] at hcell hwidth
  omega

theorem bottom_lt (hfits : Fits w.info) : w.yPos + w.cellHeight + w.cellHeight < 2 ^ 64 := by
  have hy := h.placed.y_le
  have hzero := h.placed.y_zero
  have hcell := h.cellHeight_le
  have hheight := hfits.height
  simp only [charHeight, maxScale] at hcell hheight
  omega

/-! ## The cursor -/

theorem barFits (hfits : Fits w.info) : w.BarFits where
  bottom := (Nat.le_add_right _ _).trans_lt (h.bottom_lt hfits)
  right _ hx := (Nat.add_lt_add_left hx _).trans (h.right_lt hfits)
  pixels q _ := hfits.pixelFits q.1 q.2

theorem eraseCursor_gives : ∃ buf, w.eraseCursor = { w with buffer := buf, cursorShown := false } ∧
    Gives (Fits w.info) (Machine.eraseCursor w) { w with buffer := buf, cursorShown := false } := by
  rw [eraseCursor, Machine.eraseCursor]
  rcases hshown : w.cursorShown with _ | _
  · refine ⟨w.buffer, (with_cursorShown hshown).symm, ?_⟩
    rw [with_cursorShown hshown]
    exact .pure w
  · obtain ⟨hgives, buf, hbuf⟩ := paintCursor_draws h.barFits w.bg
    rw [hbuf] at hgives ⊢
    exact ⟨buf, rfl, hgives.bind (.pure _)⟩

theorem drawCursor_gives : ∃ buf, w.drawCursor = { w with buffer := buf, cursorShown := true } ∧
    Gives (Fits w.info) (Machine.drawCursor w) { w with buffer := buf, cursorShown := true } := by
  rw [drawCursor, Machine.drawCursor]
  rcases hshown : w.cursorShown with _ | _
  · obtain ⟨hgives, buf, hbuf⟩ := paintCursor_draws h.barFits w.fg
    rw [hbuf] at hgives ⊢
    exact ⟨buf, rfl, hgives.bind (.pure _)⟩
  · refine ⟨w.buffer, (with_cursorShown hshown).symm, ?_⟩
    rw [with_cursorShown hshown]
    exact .pure w

theorem drawCursor_keeps : Keeps w (some w.drawCursor) (Machine.drawCursor w) := by
  obtain ⟨buf, hbuf, hgives⟩ := h.drawCursor_gives
  exact ⟨_, congrArg some hbuf, ⟨h.moved h.placed, rfl⟩, hgives⟩

/-! ## Lines -/

/-- **A new line** keeps the cursor on the grid: it is added to before it is subtracted from. -/
theorem newLine_gives : ∃ buf y, w.newLine = some { w with buffer := buf, xPos := 0, yPos := y } ∧
    Placed w.info w.cellWidth w.cellHeight 0 y ∧
    Gives (Fits w.info) (Machine.newLine w) { w with buffer := buf, xPos := 0, yPos := y } := by
  have hp := h.placed
  have hbottom := h.bottom_lt
  have hsteady : Steady { w with yPos := w.yPos + w.cellHeight, xPos := 0 } :=
    ⟨h.room, h.scale, h.csiPos_le, h.csiPos_pos⟩
  obtain ⟨buf, hbuf, hscroll⟩ := hsteady.scrollUp_gives
  by_cases hlast : w.yPos + w.cellHeight + w.cellHeight > w.info.height
  · refine ⟨buf, w.yPos, ?_, ⟨dvd_zero _, Nat.zero_le _, hp.y_dvd, hp.y_le, hp.y_zero⟩, ?_⟩
    · rw [newLine]
      dsimp only
      rw [if_pos hlast, hbuf, Option.bind_eq_bind, Option.bind_some, Nat.add_sub_cancel]
    · refine h.cellHeight_gives.bind ?_
      refine (Gives.add fun hfits => by have := hbottom hfits; omega).bind ?_
      refine (Gives.add hbottom).bind ?_
      rw [if_pos hlast]
      refine hscroll.bind ((Gives.sub (Nat.le_add_left _ _)).bind ?_)
      rw [Nat.add_sub_cancel]
      exact .pure _
  · refine ⟨w.buffer, w.yPos + w.cellHeight, if_neg hlast, ⟨dvd_zero _, Nat.zero_le _,
      dvd_add hp.y_dvd dvd_rfl, fun _ => by omega, fun _ => by omega⟩, ?_⟩
    refine h.cellHeight_gives.bind ?_
    refine (Gives.add fun hfits => by have := hbottom hfits; omega).bind ?_
    refine (Gives.add hbottom).bind ?_
    rw [if_neg hlast]
    exact .pure _

theorem eraseLine_gives : ∃ buf y, w.eraseCursor.newLine =
      some { w with buffer := buf, cursorShown := false, xPos := 0, yPos := y } ∧
    Placed w.info w.cellWidth w.cellHeight 0 y ∧
    Gives (Fits w.info) (Machine.eraseCursor w >>= Machine.newLine)
      { w with buffer := buf, cursorShown := false, xPos := 0, yPos := y } := by
  obtain ⟨buf, hbuf, herase⟩ := h.eraseCursor_gives
  have herased : Inv { w with buffer := buf, cursorShown := false } := h.moved h.placed
  obtain ⟨buf', y, hline, hplaced, hgives⟩ := herased.newLine_gives
  rw [hbuf]
  exact ⟨buf', y, hline, hplaced, herase.bind hgives⟩

/-- **A line break where the row is full** leaves the cursor before a cell of the row, or in column
0 of a screen without columns. -/
theorem lineBreak_gives : ∃ buf shown x y,
    (if w.xPos + w.cellWidth > w.info.width then w.eraseCursor.newLine else some w) =
      some { w with buffer := buf, cursorShown := shown, xPos := x, yPos := y } ∧
    Gives (Fits w.info)
      (if w.xPos + w.cellWidth > w.info.width then Machine.eraseCursor w >>= Machine.newLine
        else .ok w)
      { w with buffer := buf, cursorShown := shown, xPos := x, yPos := y } ∧
    Placed w.info w.cellWidth w.cellHeight x y ∧
    x + w.cellWidth ≤ max w.info.width w.cellWidth := by
  by_cases hfull : w.xPos + w.cellWidth > w.info.width
  · rw [if_pos hfull, if_pos hfull]
    obtain ⟨buf, y, hline, hplaced, hgives⟩ := h.eraseLine_gives
    exact ⟨buf, false, 0, y, hline, hgives, hplaced,
      (Nat.zero_add _).trans_le (le_max_right _ _)⟩
  · rw [if_neg hfull, if_neg hfull]
    exact ⟨w.buffer, w.cursorShown, w.xPos, w.yPos, rfl, .pure w, h.placed,
      (not_lt.mp hfull).trans (le_max_left _ _)⟩

end Inv

/-! ## Bytes -/

theorem writeGlyph_eq : w.writeGlyph byte =
    (if w.xPos + w.cellWidth > w.info.width then w.eraseCursor.newLine else some w).bind fun v =>
      some { v.drawChar v.xPos v.yPos byte with
        cursorShown := false
        xPos := (v.drawChar v.xPos v.yPos byte).xPos +
          (v.drawChar v.xPos v.yPos byte).cellWidth }.drawCursor := by
  rw [writeGlyph]
  split_ifs <;> rfl

namespace Inv

variable (h : w.Inv)
include h

/-- **A printed byte** moves the cursor by a cell. -/
theorem writeGlyph_gives (byte : UInt8) : ∃ buf x y,
    w.writeGlyph byte = some { w with buffer := buf, cursorShown := true, xPos := x, yPos := y } ∧
    Placed w.info w.cellWidth w.cellHeight x y ∧
    Gives (Fits w.info) (Machine.writeGlyph w w.cellWidth byte)
      { w with buffer := buf, cursorShown := true, xPos := x, yPos := y } := by
  obtain ⟨buf, shown, x, y, hstep, hgives, hplaced, hright⟩ := h.lineBreak_gives
  have hinv : Inv { w with buffer := buf, cursorShown := shown, xPos := x, yPos := y } :=
    h.moved hplaced
  obtain ⟨hdraw, buf', hbuf'⟩ := drawChar_draws byte hinv.right_lt
    fun hfits => (Nat.le_add_right _ _).trans_lt (hinv.bottom_lt hfits)
  have hplaced' : Placed w.info w.cellWidth w.cellHeight (x + w.cellWidth) y :=
    ⟨dvd_add hplaced.x_dvd dvd_rfl, hright, hplaced.y_dvd, hplaced.y_le, hplaced.y_zero⟩
  have hinv' : Inv { w with
      buffer := buf', cursorShown := false, xPos := x + w.cellWidth, yPos := y } := h.moved hplaced'
  obtain ⟨buf'', hbuf'', hcursor⟩ := hinv'.drawCursor_gives
  refine ⟨buf'', x + w.cellWidth, y, ?_, hplaced', ?_⟩
  · rw [writeGlyph_eq, hstep, Option.bind_some, hbuf']
    exact congrArg some hbuf''
  · refine (Gives.add h.right_lt).bind (hgives.bind ?_)
    rw [hbuf'] at hdraw
    exact hdraw.bind ((Gives.add hinv.right_lt).bind hcursor)

theorem writeGlyph_keeps (byte : UInt8) :
    Keeps w (w.writeGlyph byte) (Machine.writeGlyph w w.cellWidth byte) := by
  obtain ⟨buf, x, y, hglyph, hplaced, hgives⟩ := h.writeGlyph_gives byte
  exact ⟨_, hglyph, ⟨h.moved hplaced, rfl⟩, hgives⟩

/-- **A backspace byte** goes back by a cell, if there is one. -/
theorem backspace_keeps (hstate : w.escapeState = .normal) :
    Keeps w (w.writeByte 0x08) (Machine.backspace w w.cellWidth) := by
  obtain ⟨buf, hbuf, herase⟩ := h.eraseCursor_gives
  have hp := h.placed
  have hplaced : Placed w.info w.cellWidth w.cellHeight (w.xPos - w.cellWidth) w.yPos :=
    ⟨Nat.dvd_sub hp.x_dvd dvd_rfl, (Nat.sub_le _ _).trans hp.x_le, hp.y_dvd, hp.y_le, hp.y_zero⟩
  rw [writeByte, hstate]
  dsimp only
  rw [if_neg (by decide), if_neg (by decide), if_pos rfl, hbuf]
  by_cases hx : w.xPos ≥ w.cellWidth
  · have hinv : Inv { w with buffer := buf, cursorShown := false, xPos := w.xPos - w.cellWidth } :=
      h.moved hplaced
    obtain ⟨v, hv, hkeep, hcursor⟩ := hinv.drawCursor_keeps
    refine ⟨v, (congrArg (some ∘ drawCursor) (if_pos hx)).trans hv, hkeep, herase.bind ?_⟩
    refine Gives.bind ?_ hcursor
    rw [if_pos hx]
    exact (Gives.sub hx).bind (.pure _)
  · have hinv : Inv { w with buffer := buf, cursorShown := false } := h.moved hp
    obtain ⟨v, hv, hkeep, hcursor⟩ := hinv.drawCursor_keeps
    refine ⟨v, (congrArg (some ∘ drawCursor) (if_neg hx)).trans hv, hkeep, herase.bind ?_⟩
    refine Gives.bind ?_ hcursor
    rw [if_neg hx]
    exact .pure _

theorem newline_keeps : Keeps w (w.eraseCursor.newLine.bind fun w => some w.drawCursor)
    (Machine.eraseCursor w >>= fun w => Machine.newLine w >>= Machine.drawCursor) := by
  obtain ⟨buf, y, hline, hplaced, hgives⟩ := h.eraseLine_gives
  have hinv : Inv { w with buffer := buf, cursorShown := false, xPos := 0, yPos := y } :=
    h.moved hplaced
  obtain ⟨v, hv, hkeep, hcursor⟩ := hinv.drawCursor_keeps
  rw [hline, ← bind_assoc]
  exact ⟨v, hv, hkeep, hgives.bind hcursor⟩

end Inv

/-- Only colors are selected. -/
theorem selectColors_frame (w : FrameBufferWriter) (param : ℕ) :
    ∃ fg bg, w.selectColors param = { w with fg := fg, bg := bg } := by
  rw [selectColors]
  split_ifs <;> exact ⟨_, _, rfl⟩

theorem selectColors_gives {g : Prop} (w : FrameBufferWriter) (param : ℕ) :
    Gives g (Machine.selectColors w param) (w.selectColors param) := by
  have hcolor : ∀ {i} (c : Color), i ≤ 7 → ansiColors[i]? = some (ansiColors.getD i c) :=
    fun c hi => by
      rw [List.getD_eq_getElem?_getD, List.getElem?_eq_getElem (Nat.lt_succ_of_le hi)]
      rfl
  refine Gives.ite (fun _ => .pure _) fun _ => Gives.ite (fun hfg => ?_) fun _ =>
    Gives.ite (fun hbg => ?_) fun _ => .pure _
  · exact (Gives.sub hfg.1).bind ((Gives.index (hcolor w.fg (by omega))).bind (.pure _))
  · exact (Gives.sub hbg.1).bind ((Gives.index (hcolor w.bg (by omega))).bind (.pure _))

/-- **A byte of an escape sequence** changes colors and what is kept of the sequence, and computes
nothing that does not fit. -/
theorem escape_gives {g : Prop} (hstate : w.escapeState ≠ .normal) (hle : w.csiPos ≤ 8)
    (byte : UInt8) : ∃ fg bg state buf pos, (pos ≤ 8 ∧ (state = .inCsi → 1 ≤ pos)) ∧
      w.writeByte byte = some { w with
        fg := fg, bg := bg, escapeState := state, csiBuf := buf, csiPos := pos } ∧
      Gives g (Machine.writeByte w byte) { w with
        fg := fg, bg := bg, escapeState := state, csiBuf := buf, csiPos := pos } := by
  rw [writeByte, Machine.writeByte]
  cases h : w.escapeState with
  | normal => exact absurd h hstate
  | sawEsc =>
    refine ⟨w.fg, w.bg, _, w.csiBuf, w.csiPos, ⟨hle, fun hcsi => ?_⟩, rfl, .pure _⟩
    split_ifs at hcsi
  | sawBracket =>
    dsimp only
    by_cases hparam : isParam byte = true
    · rw [if_pos hparam, if_pos hparam]
      exact ⟨w.fg, w.bg, .inCsi, _, 1, ⟨by decide, fun _ => le_rfl⟩, rfl,
        (Gives.index (dif_pos (by decide))).bind (.pure _)⟩
    · rw [if_neg hparam, if_neg hparam]
      exact ⟨w.fg, w.bg, .normal, w.csiBuf, w.csiPos, ⟨hle, fun hcsi => by cases hcsi⟩, rfl,
        .pure _⟩
  | inCsi =>
    dsimp only
    by_cases hroom : isParam byte = true ∧ w.csiPos < 8
    · rw [dif_pos hroom, if_pos hroom]
      refine ⟨w.fg, w.bg, .inCsi, _, w.csiPos + 1, ⟨hroom.2, fun _ => Nat.succ_pos _⟩,
        rfl, ?_⟩
      exact (Gives.index (dif_pos hroom.2)).bind ((Gives.add fun _ => by omega).bind (.pure _))
    · rw [dif_neg hroom, if_neg hroom]
      by_cases hfinal : byte = 0x6d
      · rw [if_pos hfinal, if_pos hfinal]
        obtain ⟨fg, bg, hcolors⟩ := w.selectColors_frame
          ((parseU32 ((w.csiBuf.toList.take w.csiPos).takeWhile (· ≠ 0x3b))).getD 0)
        have hsgr : w.applySgr = some { w with fg := fg, bg := bg } :=
          (if_pos hle).trans (congrArg some hcolors)
        have hgives : Gives g (Machine.applySgr w) { w with fg := fg, bg := bg } := by
          rw [← hcolors]
          exact (Gives.index (if_pos hle)).bind (selectColors_gives w _)
        rw [hsgr]
        exact ⟨fg, bg, .normal, w.csiBuf, w.csiPos, ⟨hle, fun hcsi => by cases hcsi⟩, rfl,
          hgives.bind (.pure _)⟩
      · rw [if_neg hfinal, if_neg hfinal]
        exact ⟨w.fg, w.bg, .normal, w.csiBuf, w.csiPos, ⟨hle, fun hcsi => by cases hcsi⟩, rfl,
          .pure _⟩

namespace Inv

/-- An escape sequence may be in any state that its buffer has room for. -/
theorem escaped (h : w.Inv) {fg bg : Color} {state : EscapeState} {buf : Vector UInt8 8} {pos : ℕ}
    (hle : pos ≤ 8) (hpos : state = .inCsi → 1 ≤ pos) :
    Inv { w with fg := fg, bg := bg, escapeState := state, csiBuf := buf, csiPos := pos } :=
  ⟨⟨h.room, h.scale, hle, hpos⟩, h.placed⟩

variable (h : w.Inv)
include h

theorem normal_keeps (hstate : w.escapeState = .normal) :
    Keeps w (w.writeByte byte) (Machine.writeByte w byte) := by
  rw [Machine.writeByte, hstate]
  refine .bind h.cellWidth_gives ?_
  by_cases hesc : byte = 0x1b
  · rw [if_pos hesc, writeByte, hstate]
    dsimp only
    rw [if_pos hesc]
    exact .of_ok (h.escaped h.csiPos_le fun hstate => absurd hstate (by decide)) rfl
  · rw [if_neg hesc]
    by_cases hnl : byte = 0x0a
    · rw [if_pos hnl, writeByte, hstate]
      dsimp only
      rw [if_neg hesc, if_pos hnl]
      exact h.newline_keeps
    · rw [if_neg hnl]
      by_cases hback : byte = 0x08
      · rw [if_pos hback, hback]
        exact h.backspace_keeps hstate
      · rw [if_neg hback, writeByte, hstate]
        dsimp only
        rw [if_neg hesc, if_neg hnl, if_neg hback]
        exact h.writeGlyph_keeps byte

/-- **Every byte keeps the invariant**, in every state of the escape sequence. -/
theorem writeByte_keeps (byte : UInt8) : Keeps w (w.writeByte byte) (Machine.writeByte w byte) := by
  by_cases hstate : w.escapeState = .normal
  · exact h.normal_keeps hstate
  · obtain ⟨fg, bg, state, buf, pos, ⟨hle, hpos⟩, hbyte, hgives⟩ :=
      escape_gives hstate h.csiPos_le byte
    exact ⟨_, hbyte, ⟨h.escaped hle hpos, rfl⟩, hgives⟩

theorem writeString_keeps (s : List UInt8) :
    Keeps w (w.writeString s) (Machine.writeString w s) :=
  .foldlM (fun _ byte hv => hv.writeByte_keeps (sent byte)) h s

end Inv

/-! ## Calls -/

/-- The cursor of a cleared screen is in the first cell. -/
theorem placed_zero (info : FrameBufferInfo) (cw ch : ℕ) : Placed info cw ch 0 0 :=
  ⟨dvd_zero _, Nat.zero_le _, dvd_zero _, fun h => by omega, fun _ => rfl⟩

theorem Steady.clearScreen_keeps (h : Steady w) :
    Keeps w (some w.clearScreen) (Machine.clearScreen w) :=
  (h.moved (placed_zero _ _ _)).drawCursor_keeps

theorem Inv.scaled (h : w.Inv) {s : ℕ} (hs : minScale ≤ s ∧ s ≤ maxScale) :
    Steady { w with scaleFactor := s } := ⟨h.room, hs, h.csiPos_le, h.csiPos_pos⟩

theorem Inv.scaleUp_keeps (h : w.Inv) :
    Keeps w (some w.scaleUp.2) (Machine.scaleUp w >>= fun r => .ok r.2) := by
  have hscale := h.scale
  rw [scaleUp, Machine.scaleUp]
  by_cases hmax : w.scaleFactor ≥ maxScale
  · rw [if_pos hmax, if_pos hmax]
    exact .of_ok h rfl
  · rw [if_neg hmax, if_neg hmax]
    obtain ⟨v, hv, hkeep, hgives⟩ :=
      (h.scaled (s := w.scaleFactor + 1) (by omega)).clearScreen_keeps
    refine ⟨v, hv, hkeep, ?_⟩
    refine Gives.bind ((Gives.fit fun _ => ?_).bind (hgives.bind (.pure _))) (.pure _)
    simp only [maxScale] at hscale
    omega

theorem Inv.scaleDown_keeps (h : w.Inv) :
    Keeps w (some w.scaleDown.2) (Machine.scaleDown w >>= fun r => .ok r.2) := by
  have hscale := h.scale
  rw [scaleDown, Machine.scaleDown]
  by_cases hmin : w.scaleFactor ≤ minScale
  · rw [if_pos hmin, if_pos hmin]
    exact .of_ok h rfl
  · rw [if_neg hmin, if_neg hmin]
    obtain ⟨v, hv, hkeep, hgives⟩ :=
      (h.scaled (s := w.scaleFactor - 1) (by omega)).clearScreen_keeps
    exact ⟨v, hv, hkeep, Gives.bind ((Gives.sub (by simp only [minScale] at hmin; omega)).bind
      (hgives.bind (.pure _))) (.pure _)⟩

/-- A call over the natural numbers. -/
def exec (w : FrameBufferWriter) : Machine.Call → Option FrameBufferWriter
  | .writeByte byte => w.writeByte byte
  | .writeString s => w.writeString s
  | .clearScreen => some w.clearScreen
  | .scaleUp => some w.scaleUp.2
  | .scaleDown => some w.scaleDown.2

/-- **One call** gives on the machine what it computes over the natural numbers, and keeps the
invariant. -/
theorem Inv.exec_keeps (h : w.Inv) (call : Machine.Call) :
    Keeps w (w.exec call) (Machine.exec w call) := by
  cases call with
  | writeByte byte => exact h.writeByte_keeps byte
  | writeString s => exact h.writeString_keeps s
  | clearScreen => exact h.toSteady.clearScreen_keeps
  | scaleUp => exact h.scaleUp_keeps
  | scaleDown => exact h.scaleDown_keeps

theorem inv_new (buffer : ℕ → UInt8) {len : ℕ} {info : FrameBufferInfo}
    (hroom : info.height * info.stride * info.bytesPerPixel ≤ len) : (new buffer len info).Inv :=
  ⟨⟨hroom, ⟨Nat.le_refl 1, Nat.le_of_ble_eq_true rfl⟩, Nat.zero_le _, fun hstate =>
    EscapeState.noConfusion hstate⟩, placed_zero _ _ _⟩

/-- **No calls put an index out of bounds or a difference below zero**, on any screen whose lines
fit the buffer: they lead to a state with the invariant, unless a sum or a product overflows, which
takes sizes that do not fit `usize`. -/
theorem calls_keep_inv (buffer : ℕ → UInt8) {len : ℕ} {info : FrameBufferInfo}
    (hroom : info.height * info.stride * info.bytesPerPixel ≤ len) (calls : List Machine.Call) :
    (∃ w, calls.foldlM Machine.exec (new buffer len info) = .ok w ∧ w.info = info ∧ w.Inv) ∨
      calls.foldlM Machine.exec (new buffer len info) = .error .overflow ∧ ¬ Fits info := by
  obtain ⟨w, -, hkeep, hgives⟩ := Keeps.foldlM (fun _ call hv => hv.exec_keeps call)
    (inv_new buffer hroom) calls
  rcases hgives with hok | ⟨hfits, herror⟩
  · exact .inl ⟨w, hok, hkeep.2, hkeep.1⟩
  · exact .inr ⟨herror, hfits⟩

/-- A screen of two cells, and half a row below them. -/
def pairInfo : FrameBufferInfo := ⟨16, 24, .rgb, 3, 16⟩

theorem calls_keep_inv_pair : ∃ w, [Machine.Call.writeString [0x61, 0x62, 0x63], .writeByte 0x1b,
    .writeByte 0x5b, .scaleUp, .writeByte 0x33, .scaleUp, .writeByte 0x6d, .writeByte 0x64].foldlM
      Machine.exec (new (fun _ => 0) 1152 pairInfo) = .ok w ∧ w.info = pairInfo ∧ w.Inv := by
  rcases @calls_keep_inv (fun _ => 0) 1152 pairInfo (by decide) [.writeString [0x61, 0x62, 0x63],
    .writeByte 0x1b, .writeByte 0x5b, .scaleUp, .writeByte 0x33, .scaleUp, .writeByte 0x6d,
    .writeByte 0x64] with h | h
  · exact h
  · exact absurd ⟨by decide, by decide, by decide, by decide, by decide⟩ h.2

end FrameBufferWriter

end YontiOs.Framebuffer
