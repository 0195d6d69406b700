import YontiOs.Framebuffer.Writer
import YontiOs.Machinery.Grid

/-!
# Framebuffer/Pixels — what the drawing methods do to the picture

A write puts three bytes into the buffer, whatever the pixel format.  Where pixels are apart that is
one pixel, and no other one changes (`PixelsApart.readPixel_writePixel`).

`Paints w w' R c` says that a method changed the picture on `R` only, to the colors `c`, and nothing
but the buffer otherwise.  It goes through loops (`Paints.forRange`), which turns `draw_char` and
the cursor bar into rectangles (`drawChar_paints`, `paintCursor_paints`).  Under `Geometry` — three
bytes a pixel or more, and room for every row — `scroll_up` moves all rows up by the height of a
cell (`scrollUp_spec`).
-/

namespace YontiOs.Framebuffer

namespace FrameBufferWriter

variable {w w' w'' : FrameBufferWriter} {x y x' y' : ℕ} {r g b : UInt8}

/-- A row of pixels fits a line of the buffer, and all lines fit the buffer. -/
structure Geometry (w : FrameBufferWriter) : Prop where
  bpp : 3 ≤ w.info.bytesPerPixel
  stride : w.info.width ≤ w.info.stride
  len : w.info.height * w.info.stride * w.info.bytesPerPixel ≤ w.bufferLen

/-- The pixel is on the screen. -/
def OnScreen (w : FrameBufferWriter) (x y : ℕ) : Prop := x < w.info.width ∧ y < w.info.height

/-- The color of the bytes from `i` on. -/
def colorAt (w : FrameBufferWriter) (i : ℕ) : Color :=
  match w.info.pixelFormat with
  | .bgr => (w.buffer (i + 2), w.buffer (i + 1), w.buffer i)
  | _ => (w.buffer i, w.buffer (i + 1), w.buffer (i + 2))

/-- A color of three equal parts is three equal bytes. -/
theorem colorAt_eq_gray {i : ℕ} {v : UInt8} :
    w.colorAt i = (v, v, v) ↔ ∀ j < 3, w.buffer (i + j) = v := by
  have hbytes : (∀ j < 3, w.buffer (i + j) = v) ↔
      w.buffer i = v ∧ w.buffer (i + 1) = v ∧ w.buffer (i + 2) = v :=
    ⟨fun h => ⟨h 0 (by decide), h 1 (by decide), h 2 (by decide)⟩, fun h j hj => by
      interval_cases j
      exacts [h.1, h.2.1, h.2.2]⟩
  rw [hbytes, colorAt]
  split
  · rw [Prod.mk.injEq, Prod.mk.injEq]
    exact ⟨fun h => ⟨h.2.2, h.2.1, h.1⟩, fun h => ⟨h.2.2, h.2.1, h.1⟩⟩
  · rw [Prod.mk.injEq, Prod.mk.injEq]

theorem forRange_succ (n : ℕ) (f : FrameBufferWriter → ℕ → FrameBufferWriter) :
    w.forRange (n + 1) f = f (w.forRange n f) n := by
  rw [forRange, List.range_succ, List.foldl_append]
  rfl

theorem with_cursorShown {b : Bool} (h : w.cursorShown = b) : { w with cursorShown := b } = w := by
  cases w
  cases h
  rfl

/-! ## Offsets -/

theorem offset_eq (w : FrameBufferWriter) (x y : ℕ) :
    w.offset x y = y * (w.info.stride * w.info.bytesPerPixel) + x * w.info.bytesPerPixel := by
  rw [offset, Nat.add_mul, Nat.mul_assoc]

/-- A pixel of a line ends before the next line. -/
theorem offset_add_le (hx : x < w.info.stride) {n : ℕ} (hy : y < n) :
    w.offset x y + w.info.bytesPerPixel ≤ n * (w.info.stride * w.info.bytesPerPixel) := by
  have hrow : (x + 1) * w.info.bytesPerPixel ≤ w.info.stride * w.info.bytesPerPixel :=
    Nat.mul_le_mul_right _ hx
  have hline : (y + 1) * (w.info.stride * w.info.bytesPerPixel) ≤
      n * (w.info.stride * w.info.bytesPerPixel) := Nat.mul_le_mul_right _ hy
  rw [Nat.add_mul, Nat.one_mul] at hrow hline
  rw [offset_eq]
  omega

/-- The pixel is on the screen, and its three bytes are in the buffer. -/
def Stored (w : FrameBufferWriter) (x y : ℕ) : Prop :=
  w.OnScreen x y ∧ w.offset x y + 2 < w.bufferLen

instance (w : FrameBufferWriter) (x y : ℕ) : Decidable (w.Stored x y) :=
  inferInstanceAs (Decidable ((_ ∧ _) ∧ _))

theorem Geometry.stored_iff (h : Geometry w) : w.Stored x y ↔ w.OnScreen x y := by
  refine ⟨And.left, fun hp => ⟨hp, ?_⟩⟩
  have hle := offset_add_le (hp.1.trans_le h.stride) hp.2
  have hlen := h.len
  have hbpp := h.bpp
  rw [Nat.mul_assoc] at hlen
  omega

/-- Different pixels have different bytes. -/
def PixelsApart (w : FrameBufferWriter) : Prop :=
  ∀ x y x' y', w.Stored x y → w.Stored x' y' → ¬ (x' = x ∧ y' = y) →
    w.offset x y + 3 ≤ w.offset x' y' ∨ w.offset x' y' + 3 ≤ w.offset x y

/-- **Pixels of three bytes are apart.** -/
theorem pixelsApart_of_le (hbpp : 3 ≤ w.info.bytesPerPixel)
    (hstride : w.info.width ≤ w.info.stride) : w.PixelsApart := by
  intro x y x' y' hp hp' hne
  have hx := hp.1.1.trans_le hstride
  have hx' := hp'.1.1.trans_le hstride
  have hidx : y * w.info.stride + x ≠ y' * w.info.stride + x' := fun heq =>
    hne (((Grid.inj hx hx').mp heq).symm.imp Eq.symm Eq.symm)
  rcases Nat.lt_or_gt_of_ne hidx with hlt | hgt
  · have := Nat.mul_le_mul_right w.info.bytesPerPixel hlt
    rw [Nat.succ_mul] at this
    left
    rw [offset, offset]
    omega
  · have := Nat.mul_le_mul_right w.info.bytesPerPixel hgt
    rw [Nat.succ_mul] at this
    right
    rw [offset, offset]
    omega

theorem Geometry.pixelsApart (h : Geometry w) : w.PixelsApart := pixelsApart_of_le h.bpp h.stride

/-! ## Reading and writing one pixel -/

theorem readPixel_of_not_stored (hp : ¬ w.Stored x y) : w.readPixel x y = none := by
  rw [readPixel]
  dsimp only
  split_ifs with hscreen hlen
  · rfl
  · rfl
  · exact absurd ⟨⟨by omega, by omega⟩, by omega⟩ hp

theorem Stored.readPixel_eq (hp : w.Stored x y) :
    w.readPixel x y = some (w.colorAt (w.offset x y)) := by
  obtain ⟨⟨hx, hy⟩, hlt⟩ := hp
  rw [readPixel, if_neg (by omega)]
  dsimp only
  rw [if_neg (by omega), colorAt]
  cases w.info.pixelFormat <;> rfl

theorem Geometry.readPixel_eq (h : Geometry w) (hp : w.OnScreen x y) :
    w.readPixel x y = some (w.colorAt (w.offset x y)) :=
  (h.stored_iff.mpr hp).readPixel_eq

theorem writePixel_frame (w : FrameBufferWriter) (x y : ℕ) (r g b : UInt8) :
    ∃ buf, w.writePixel x y r g b = { w with buffer := buf } := by
  rw [writePixel]
  dsimp only
  split_ifs
  · exact ⟨w.buffer, rfl⟩
  · exact ⟨w.buffer, rfl⟩
  · cases w.info.pixelFormat <;> exact ⟨_, rfl⟩

theorem writePixel_of_not_stored (hp : ¬ w.Stored x y) : w.writePixel x y r g b = w := by
  rw [writePixel]
  dsimp only
  split_ifs with hscreen hlen
  · rfl
  · rfl
  · exact absurd ⟨⟨by omega, by omega⟩, by omega⟩ hp

/-- What a write leaves in the buffer. -/
theorem Stored.writePixel_eq (hp : w.Stored x y) : ∃ buf,
    w.writePixel x y r g b = { w with buffer := buf } ∧
      colorAt { w with buffer := buf } (w.offset x y) = (r, g, b) ∧
      ∀ i, i < w.offset x y ∨ w.offset x y + 3 ≤ i → buf i = w.buffer i := by
  obtain ⟨⟨hx, hy⟩, hlt⟩ := hp
  rw [writePixel, if_neg (by omega)]
  dsimp only
  rw [if_neg (by omega)]
  have hother : ∀ a b c : UInt8, ∀ i, i < w.offset x y ∨ w.offset x y + 3 ≤ i →
      (w.setBytes (w.offset x y) a b c).buffer i = w.buffer i := by
    intro a b c i hi
    simp only [setBytes]
    rw [Function.update_of_ne (by omega), Function.update_of_ne (by omega),
      Function.update_of_ne (by omega)]
  cases hf : w.info.pixelFormat <;>
    refine ⟨(w.setBytes (w.offset x y) _ _ _).buffer, rfl, ?_, hother _ _ _⟩ <;>
    simp [colorAt, setBytes, hf]

/-- **A pixel that is written is read back.** -/
theorem Stored.readPixel_writePixel_self (hp : w.Stored x y) :
    (w.writePixel x y r g b).readPixel x y = some (r, g, b) := by
  obtain ⟨buf, heq, hcolor, -⟩ := hp.writePixel_eq (r := r) (g := g) (b := b)
  have hp' : Stored { w with buffer := buf } x y := hp
  rw [heq, hp'.readPixel_eq]
  exact congrArg some hcolor

/-- **No other pixel changes** when pixels are apart. -/
theorem PixelsApart.readPixel_writePixel_of_ne (h : w.PixelsApart) (hne : ¬ (x' = x ∧ y' = y)) :
    (w.writePixel x y r g b).readPixel x' y' = w.readPixel x' y' := by
  by_cases hp : w.Stored x y
  · obtain ⟨buf, heq, -, hother⟩ := hp.writePixel_eq (r := r) (g := g) (b := b)
    rw [heq]
    by_cases hp' : w.Stored x' y'
    · have hfar := h x y x' y' hp hp' hne
      rw [Stored.readPixel_eq (w := { w with buffer := buf }) hp', hp'.readPixel_eq,
        show offset { w with buffer := buf } x' y' = w.offset x' y' from rfl, colorAt, colorAt]
      dsimp only
      rw [hother _ (by omega), hother _ (by omega), hother _ (by omega)]
    · rw [readPixel_of_not_stored (w := { w with buffer := buf }) hp',
        readPixel_of_not_stored hp']
  · rw [writePixel_of_not_stored hp]

theorem PixelsApart.readPixel_writePixel (h : w.PixelsApart) (x y x' y' : ℕ) (r g b : UInt8) :
    (w.writePixel x y r g b).readPixel x' y' =
      if x' = x ∧ y' = y then (w.readPixel x' y').map fun _ => (r, g, b)
      else w.readPixel x' y' := by
  split_ifs with hxy
  · obtain ⟨rfl, rfl⟩ := hxy
    by_cases hp : w.Stored x' y'
    · rw [hp.readPixel_writePixel_self, hp.readPixel_eq]
      rfl
    · rw [writePixel_of_not_stored hp, readPixel_of_not_stored hp]
      rfl
  · exact h.readPixel_writePixel_of_ne hxy

/-! ## Painting a region -/

/-- **Only the buffer changes**, and of the picture only the pixels in `R`, to the colors `c`. -/
structure Paints (w w' : FrameBufferWriter) (R : Set (ℕ × ℕ)) (c : ℕ × ℕ → Color) : Prop where
  frame : ∃ buf, w' = { w with buffer := buf }
  inside : ∀ p ∈ R, w'.readPixel p.1 p.2 = (w.readPixel p.1 p.2).map fun _ => c p
  outside : ∀ p ∉ R, w'.readPixel p.1 p.2 = w.readPixel p.1 p.2

theorem Geometry.of_frame (h : Geometry w) (hf : ∃ buf, w' = { w with buffer := buf }) :
    Geometry w' := by
  obtain ⟨buf, rfl⟩ := hf
  exact ⟨h.bpp, h.stride, h.len⟩

namespace Paints

variable {R R' : Set (ℕ × ℕ)} {c c' : ℕ × ℕ → Color}

theorem refl (w : FrameBufferWriter) (c : ℕ × ℕ → Color) : Paints w w ∅ c :=
  ⟨⟨w.buffer, rfl⟩, fun _ hp => absurd hp (Set.notMem_empty _), fun _ _ => rfl⟩

/-- One region after another, from the same picture. -/
theorem trans (h : Paints w w' R c) (h' : Paints w' w'' R' c) : Paints w w'' (R ∪ R') c where
  frame := by
    obtain ⟨buf, rfl⟩ := h.frame
    obtain ⟨buf', rfl⟩ := h'.frame
    exact ⟨buf', rfl⟩
  inside p hp := by
    by_cases hp' : p ∈ R'
    · rw [h'.inside p hp']
      by_cases hpR : p ∈ R
      · rw [h.inside p hpR, Option.map_map]
        rfl
      · rw [h.outside p hpR]
    · rw [h'.outside p hp', h.inside p (hp.resolve_right hp')]
  outside p hp := by
    rw [h'.outside p fun hr => hp (.inr hr), h.outside p fun hr => hp (.inl hr)]

theorem congr (h : Paints w w' R c) (hR : R = R') (hc : ∀ p ∈ R, c p = c' p) :
    Paints w w' R' c' where
  frame := h.frame
  inside p hp := by
    subst hR
    rw [h.inside p hp, hc p hp]
  outside p hp := h.outside p (hR ▸ hp)

/-- **A loop of painting steps paints the union.** -/
theorem forRange {n : ℕ} {f : FrameBufferWriter → ℕ → FrameBufferWriter} {S : ℕ → Set (ℕ × ℕ)}
    (hf : ∀ i < n, ∀ buf, Paints { w with buffer := buf } (f { w with buffer := buf } i) (S i) c) :
    Paints w (w.forRange n f) {p | ∃ i < n, p ∈ S i} c := by
  induction n with
  | zero => exact (refl w c).congr (by ext; simp) fun _ _ => rfl
  | succ n ih =>
    have hprev := ih fun i hi => hf i (Nat.lt_succ_of_lt hi)
    obtain ⟨buf, hbuf⟩ := hprev.frame
    have hlast := hf n (Nat.lt_succ_self n) buf
    rw [← hbuf] at hlast
    rw [forRange_succ]
    refine (hprev.trans hlast).congr ?_ fun _ _ => rfl
    ext p
    constructor
    · rintro (⟨i, hi, hp⟩ | hp)
      · exact ⟨i, Nat.lt_succ_of_lt hi, hp⟩
      · exact ⟨n, Nat.lt_succ_self n, hp⟩
    · rintro ⟨i, hi, hp⟩
      rcases Nat.lt_succ_iff_lt_or_eq.mp hi with hi | rfl
      · exact .inl ⟨i, hi, hp⟩
      · exact .inr hp

end Paints

theorem PixelsApart.writePixel_paints (h : w.PixelsApart) {c : ℕ × ℕ → Color}
    (hc : c (x, y) = (r, g, b)) : Paints w (w.writePixel x y r g b) {(x, y)} c where
  frame := writePixel_frame w x y r g b
  inside p hp := by
    obtain rfl : p = (x, y) := hp
    rw [h.readPixel_writePixel, if_pos ⟨rfl, rfl⟩, hc]
  outside p hp := by
    rw [h.readPixel_writePixel, if_neg]
    exact fun hxy => hp (Prod.ext hxy.1 hxy.2)

/-! ## Rectangles -/

/-- The rectangle with corner `(x, y)`. -/
def rect (x y width height : ℕ) : Set (ℕ × ℕ) :=
  {p | (x ≤ p.1 ∧ p.1 < x + width) ∧ y ≤ p.2 ∧ p.2 < y + height}

theorem block_div {s i j : ℕ} (hj : j < s) (x : ℕ) : (x + i * s + j - x) / s = i := by
  rw [Nat.add_assoc, Nat.add_sub_cancel_left, Grid.div hj]

/-- **`draw_char` paints the enlarged glyph** into its cell. -/
theorem PixelsApart.drawChar_paints (h : w.PixelsApart) (x y : ℕ) (c : UInt8) :
    Paints w (w.drawChar x y c) (rect x y w.cellWidth w.cellHeight) fun p =>
      if lit c ((p.2 - y) / w.scaleFactor) ((p.1 - x) / w.scaleFactor) then w.fg else w.bg := by
  have hpaint := Paints.forRange (w := w) (n := charHeight) (c := fun p =>
      if lit c ((p.2 - y) / w.scaleFactor) ((p.1 - x) / w.scaleFactor) then w.fg else w.bg)
    (S := fun row => {p | ∃ col < charWidth, ∃ sy < w.scaleFactor, ∃ sx < w.scaleFactor,
      p = (x + col * w.scaleFactor + sx, y + row * w.scaleFactor + sy)})
    (f := fun w' row => w'.forRange charWidth fun w' col =>
      let color := if lit c row col then w'.fg else w'.bg
      w'.forRange w.scaleFactor fun w' sy => w'.forRange w.scaleFactor fun w' sx =>
        w'.writePixel (x + col * w.scaleFactor + sx) (y + row * w.scaleFactor + sy)
          color.1 color.2.1 color.2.2)
    fun row _ buf => Paints.forRange fun col _ buf => Paints.forRange fun sy hsy buf =>
      Paints.forRange fun sx hsx buf => by
        refine PixelsApart.writePixel_paints (w := { w with buffer := buf }) h ?_
        dsimp only
        rw [block_div hsy, block_div hsx]
  refine hpaint.congr ?_ fun _ _ => rfl
  ext ⟨px, py⟩
  simp only [rect, cellWidth, cellHeight, Set.mem_ofPred_eq, Prod.mk.injEq]
  constructor
  · rintro ⟨row, hrow, col, hcol, sy, hsy, sx, hsx, rfl, rfl⟩
    have h1 := Grid.lt hrow hsy
    have h2 := Grid.lt hcol hsx
    omega
  · rintro ⟨⟨hx, hx'⟩, hy, hy'⟩
    obtain ⟨row, hrow, sy, hsy, hrow'⟩ := Grid.exists_iff.mpr
      (show py - y < charHeight * w.scaleFactor by omega)
    obtain ⟨col, hcol, sx, hsx, hcol'⟩ := Grid.exists_iff.mpr
      (show px - x < charWidth * w.scaleFactor by omega)
    exact ⟨row, hrow, col, hcol, sy, hsy, sx, hsx, by omega, by omega⟩

/-- The bar of the cursor. -/
def bar (w : FrameBufferWriter) : Set (ℕ × ℕ) :=
  rect w.xPos (w.yPos + w.cellHeight - cursorHeight * w.scaleFactor) w.cellWidth
    (cursorHeight * w.scaleFactor)

theorem mem_bar {q : ℕ × ℕ} : q ∈ w.bar ↔ ∃ j < cursorHeight * w.scaleFactor, ∃ i < w.cellWidth,
    q = (w.xPos + i, w.yPos + w.cellHeight - cursorHeight * w.scaleFactor + j) := by
  obtain ⟨px, py⟩ := q
  simp only [bar, rect, Set.mem_ofPred_eq, Prod.mk.injEq]
  constructor
  · rintro ⟨⟨hx, hx'⟩, hy, hy'⟩
    exact ⟨py - (w.yPos + w.cellHeight - cursorHeight * w.scaleFactor), by omega, px - w.xPos,
      by omega, by omega, by omega⟩
  · rintro ⟨j, hj, i, hi, rfl, rfl⟩
    omega

/-- **The cursor bar is a rectangle** at the bottom of its cell. -/
theorem PixelsApart.paintCursor_paints (h : w.PixelsApart) (color : Color) :
    Paints w (w.paintCursor color) w.bar fun _ => color := by
  refine (Paints.forRange (S := fun j => {p | ∃ i < w.cellWidth, p = (w.xPos + i,
    w.yPos + w.cellHeight - cursorHeight * w.scaleFactor + j)}) fun j _ buf =>
    Paints.forRange fun i _ buf => PixelsApart.writePixel_paints (w := { w with buffer := buf }) h
      rfl).congr ?_ fun _ _ => rfl
  ext q
  exact mem_bar.symm

/-! ## Scrolling and clearing -/

theorem colorAt_congr {i i' : ℕ} (hf : w'.info.pixelFormat = w.info.pixelFormat)
    (hb : ∀ j < 3, w'.buffer (i' + j) = w.buffer (i + j)) : w'.colorAt i' = w.colorAt i := by
  have h0 := hb 0 (by decide)
  have h1 := hb 1 (by decide)
  have h2 := hb 2 (by decide)
  rw [Nat.add_zero, Nat.add_zero] at h0
  rw [colorAt, colorAt, hf, h0, h1, h2]

/-- The buffer after a scroll by `row` of `total` bytes. -/
theorem scrollUp_eq {total row : ℕ}
    (htotal : w.info.height * w.info.stride * w.info.bytesPerPixel = total)
    (hrow : w.info.stride * w.info.bytesPerPixel * w.cellHeight = row) (hlt : row < total)
    (hlen : total ≤ w.bufferLen) : ∃ buf, w.scrollUp = some { w with buffer := buf } ∧
      (∀ i < total - row, buf i = w.buffer (row + i)) ∧
      ∀ i, total - row ≤ i → i < total → buf i = 0 := by
  rw [scrollUp, htotal, hrow, if_neg (by omega), copyToFront, if_pos ⟨hlt.le, hlen⟩,
    Option.bind_eq_bind, Option.bind_some, fillZero, if_pos ⟨Nat.sub_le _ _, hlen⟩]
  refine ⟨_, rfl, fun i hi => ?_, fun i h1 h2 => ?_⟩
  · dsimp only
    rw [if_neg (by omega), if_pos hi]
  · dsimp only
    rw [if_pos ⟨h1, h2⟩]

/-- **`scroll_up` moves the picture up by a cell**, over black, if there is more than one cell. -/
theorem Geometry.scrollUp_spec (h : Geometry w) (hw : 0 < w.info.width)
    (hh : w.cellHeight < w.info.height) : ∃ buf, w.scrollUp = some { w with buffer := buf } ∧
      ∀ x y, w.OnScreen x y → readPixel { w with buffer := buf } x y =
        if y + w.cellHeight < w.info.height then w.readPixel x (y + w.cellHeight)
        else some (0, 0, 0) := by
  have hlen := h.len
  have hbpp := h.bpp
  have hline : 0 < w.info.stride * w.info.bytesPerPixel :=
    Nat.mul_pos (hw.trans_le h.stride) (by omega)
  have hlt := Nat.mul_lt_mul_of_pos_right hh hline
  rw [Nat.mul_assoc] at hlen
  obtain ⟨buf, hbuf, hmoved, hblack⟩ :=
    scrollUp_eq (Nat.mul_assoc _ _ _) (Nat.mul_comm _ _) hlt hlen
  refine ⟨buf, hbuf, fun x y hp => ?_⟩
  have hx := hp.1.trans_le h.stride
  have hpix := offset_add_le hx hp.2
  rw [(h.of_frame ⟨buf, rfl⟩).readPixel_eq hp]
  split_ifs with hy
  · -- the pixel a cell below is on the screen
    have hpix' := offset_add_le hx hy
    have hup : w.offset x (y + w.cellHeight) =
        w.cellHeight * (w.info.stride * w.info.bytesPerPixel) + w.offset x y := by
      rw [offset_eq, offset_eq, Nat.add_mul]
      omega
    rw [h.readPixel_eq ⟨hp.1, hy⟩, hup]
    refine congrArg some (colorAt_congr rfl fun j hj => ?_)
    rw [Nat.add_assoc]
    exact hmoved _ (show w.offset x y + j < _ by omega)
  · have hge : (w.info.height - w.cellHeight) * (w.info.stride * w.info.bytesPerPixel) ≤
        w.offset x y := by
      rw [offset_eq]
      exact (Nat.mul_le_mul_right _ (by omega)).trans (Nat.le_add_right _ _)
    rw [Nat.sub_mul] at hge
    exact congrArg some (colorAt_eq_gray.mpr fun j hj =>
      hblack _ (show _ ≤ w.offset x y + j by omega) (show w.offset x y + j < _ by omega))

/-- The picture of a cleared buffer is black. -/
theorem Geometry.readPixel_of_zero (h : Geometry w) (hzero : ∀ i < w.bufferLen, w.buffer i = 0)
    (hp : w.OnScreen x y) : w.readPixel x y = some (0, 0, 0) := by
  have hlt := (h.stored_iff.mpr hp).2
  rw [h.readPixel_eq hp]
  exact congrArg some (colorAt_eq_gray.mpr fun j hj => hzero _ (by omega))

end FrameBufferWriter

end YontiOs.Framebuffer
