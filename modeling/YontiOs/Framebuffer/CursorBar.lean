import YontiOs.Framebuffer.Escape
import YontiOs.Framebuffer.Text

/-!
# Framebuffer/CursorBar — what the cursor leaves behind

`draw_cursor` paints over what is under the cursor without keeping it, and `erase_cursor` paints the
background of its own moment.  The last pixel painted into a byte decides it, in every buffer
(`Overlays`), so erasing a drawn cursor is the same as painting its bar in the background at once
(`readPixel_eraseCursor`).  The machine can do both where the bar fits `usize`, and the picture is
restored just when the bar had that color before (`cursor_restores_iff`), which the bottom of a `g`
does not.
-/

namespace YontiOs.Framebuffer.FrameBufferWriter

variable {w v u : FrameBufferWriter} {rows cols r c x y n : ℕ} {color : Color}

/-! ## Painting twice -/

/-- The same screen, with the cursor in the same place. -/
structure SamePlace (w v : FrameBufferWriter) : Prop where
  info : v.info = w.info
  len : v.bufferLen = w.bufferLen
  x : v.xPos = w.xPos
  y : v.yPos = w.yPos
  scale : v.scaleFactor = w.scaleFactor

/-- Put parts of a color into some bytes of the buffer. -/
def overlay (g : ℕ → Option (Color → UInt8)) (color : Color) (v : FrameBufferWriter) :
    FrameBufferWriter :=
  { v with buffer := fun i => (g i).elim (v.buffer i) (· color) }

theorem overlay_same (g : ℕ → Option (Color → UInt8)) (color color' : Color) :
    overlay g color' (overlay g color v) = overlay g color' v := by
  simp only [overlay]
  congr 1
  funext i
  cases g i <;> rfl

/-- What is painted last stays. -/
theorem overlay_overlay (g g' : ℕ → Option (Color → UInt8)) :
    overlay g' color (overlay g color v) = overlay (fun i => (g' i).or (g i)) color v := by
  simp only [overlay]
  congr 1
  funext i
  cases g' i <;> rfl

theorem SamePlace.overlay (h : SamePlace w v) (g : ℕ → Option (Color → UInt8)) :
    SamePlace w (overlay g color v) := ⟨h.info, h.len, h.x, h.y, h.scale⟩

/-- Byte `i` of the buffer is one of a pixel's. -/
def HasByte (w : FrameBufferWriter) (i : ℕ) (q : ℕ × ℕ) : Prop :=
  w.Stored q.1 q.2 ∧ w.offset q.1 q.2 ≤ i ∧ i < w.offset q.1 q.2 + 3

instance (w : FrameBufferWriter) (i : ℕ) : DecidablePred (w.HasByte i) := fun _ =>
  inferInstanceAs (Decidable (_ ∧ _))

/-- The part of a color that byte `j` of a pixel holds. -/
def part (w : FrameBufferWriter) (j : ℕ) (color : Color) : UInt8 :=
  match w.info.pixelFormat, j with
  | .bgr, 0 => color.2.2
  | .bgr, 1 => color.2.1
  | .bgr, _ => color.1
  | _, 0 => color.1
  | _, 1 => color.2.1
  | _, _ => color.2.2

/-- What the last of some pixels that has a byte puts there. -/
def parts (w : FrameBufferWriter) (ps : List (ℕ × ℕ)) (i : ℕ) : Option (Color → UInt8) :=
  (ps.reverse.find? fun q => w.HasByte i q).map fun q => w.part (i - w.offset q.1 q.2)

theorem parts_append (ps ps' : List (ℕ × ℕ)) :
    w.parts (ps ++ ps') = fun i => (w.parts ps' i).or (w.parts ps i) := by
  funext i
  rw [parts, parts, parts, List.reverse_append, List.find?_append, Option.map_or]

/-- **A method paints some pixels, one after another**, the same ones in every buffer. -/
def Overlays (w : FrameBufferWriter) (f : Color → FrameBufferWriter → FrameBufferWriter)
    (ps : List (ℕ × ℕ)) : Prop :=
  ∀ color v, SamePlace w v → f color v = overlay (w.parts ps) color v

theorem parts_singleton (q : ℕ × ℕ) (i : ℕ) : w.parts [q] i =
    if w.HasByte i q then some (w.part (i - w.offset q.1 q.2)) else none := by
  rw [parts, List.reverse_singleton, List.find?_singleton]
  by_cases hbyte : w.HasByte i q
  · rw [if_pos hbyte, if_pos (decide_eq_true hbyte), Option.map_some]
  · rw [if_neg hbyte, if_neg (by simpa using hbyte), Option.map_none]

theorem SamePlace.writePixel_eq (hv : SamePlace w v) (hp : w.Stored x y) (color : Color) :
    v.writePixel x y color.1 color.2.1 color.2.2 = v.setBytes (w.offset x y) (w.part 0 color)
      (w.part 1 color) (w.part 2 color) := by
  obtain ⟨⟨hx, hy⟩, hlt⟩ := hp
  have hoffset : v.offset x y = w.offset x y := by rw [offset, offset, hv.info]
  rw [writePixel, hv.info, hv.len, hoffset, if_neg (by omega)]
  refine (if_neg (by omega)).trans ?_
  simp only [part]
  cases w.info.pixelFormat <;> rfl

theorem overlays_writePixel (w : FrameBufferWriter) (x y : ℕ) :
    Overlays w (fun color v => v.writePixel x y color.1 color.2.1 color.2.2) [(x, y)] := by
  intro color v hv
  dsimp only
  by_cases hp : w.Stored x y
  · rw [hv.writePixel_eq hp, setBytes, overlay]
    congr 1
    funext i
    rw [parts_singleton]
    simp only [HasByte, eq_true hp, true_and]
    split_ifs with hi
    · obtain ⟨j, rfl⟩ := Nat.exists_eq_add_of_le hi.1
      have hj : j < 3 := by omega
      interval_cases j <;> simp
    · rw [Function.update_of_ne (by omega), Function.update_of_ne (by omega),
        Function.update_of_ne (by omega), Option.elim_none]
  · have hpv : ¬ v.Stored x y := by rwa [Stored, OnScreen, offset, hv.info, hv.len]
    rw [writePixel_of_not_stored hpv, overlay]
    simp only [parts_singleton, HasByte, eq_false hp, false_and, if_false, Option.elim_none]

theorem Overlays.congr {f g : Color → FrameBufferWriter → FrameBufferWriter}
    {ps : List (ℕ × ℕ)} (h : Overlays w f ps)
    (hf : ∀ color v, SamePlace w v → g color v = f color v) : Overlays w g ps :=
  fun color v hv => (hf color v hv).trans (h color v hv)

theorem Overlays.forRange {f : ℕ → Color → FrameBufferWriter → FrameBufferWriter}
    {ps : ℕ → List (ℕ × ℕ)} (hf : ∀ i < n, Overlays w (f i) (ps i)) :
    Overlays w (fun color v => v.forRange n fun v i => f i color v)
      ((List.range n).flatMap ps) := by
  induction n with
  | zero => exact fun _ _ _ => rfl
  | succ n ih =>
    intro color v hv
    have hprev : (v.forRange n fun v i => f i color v) =
        overlay (w.parts ((List.range n).flatMap ps)) color v :=
      ih (fun i hi => hf i (Nat.lt_succ_of_lt hi)) color v hv
    dsimp only
    rw [forRange_succ, hprev, hf n (Nat.lt_succ_self n) color _ (hv.overlay _), overlay_overlay,
      List.range_succ, List.flatMap_append, List.flatMap_singleton, parts_append]

/-- The pixels of the bar, in the order they are painted: line by line, from the left. -/
def barPixels (w : FrameBufferWriter) : List (ℕ × ℕ) :=
  (List.range (cursorHeight * w.scaleFactor)).flatMap fun j => (List.range w.cellWidth).map fun i =>
    (w.xPos + i, w.yPos + w.cellHeight - cursorHeight * w.scaleFactor + j)

theorem mem_barPixels {q : ℕ × ℕ} : q ∈ w.barPixels ↔ q ∈ w.bar := by
  rw [mem_bar]
  simp only [barPixels, List.mem_flatMap, List.mem_map, List.mem_range, eq_comm]

/-- **The bar is an overlay.** -/
theorem overlays_paintCursor (w : FrameBufferWriter) :
    Overlays w (fun color v => v.paintCursor color) w.barPixels := by
  -- a line of the bar
  have hrow : ∀ y, Overlays w (fun color v => v.forRange v.cellWidth fun v x =>
      v.writePixel (v.xPos + x) y color.1 color.2.1 color.2.2)
        ((List.range w.cellWidth).map fun x => (w.xPos + x, y)) := by
    intro y
    rw [List.map_eq_flatMap]
    refine Overlays.congr (Overlays.forRange (n := w.cellWidth) fun x _ =>
      (overlays_writePixel w (w.xPos + x) y).congr (g := fun color v =>
        v.writePixel (v.xPos + x) y color.1 color.2.1 color.2.2)
          fun color v hv => by rw [hv.x]) fun color v hv => ?_
    rw [cellWidth, hv.scale]
    rfl
  refine Overlays.congr (Overlays.forRange (n := cursorHeight * w.scaleFactor) fun y _ =>
    hrow (w.yPos + w.cellHeight - cursorHeight * w.scaleFactor + y)) fun color v hv => ?_
  rw [paintCursor, cellHeight, cellHeight, hv.y, hv.scale]

theorem paintCursor_eq (w : FrameBufferWriter) (color : Color) :
    w.paintCursor color = overlay (w.parts w.barPixels) color w :=
  w.overlays_paintCursor color w ⟨rfl, rfl, rfl, rfl, rfl⟩

theorem buffer_paintCursor (w : FrameBufferWriter) (color : Color) (i : ℕ) :
    (w.paintCursor color).buffer i = (w.parts w.barPixels i).elim (w.buffer i) (· color) := by
  rw [w.paintCursor_eq]
  rfl

/-! ## Drawing and erasing -/

theorem readPixel_congr (hinfo : v.info = w.info) (hlen : v.bufferLen = w.bufferLen)
    (hbuf : v.buffer = w.buffer) (x y : ℕ) : v.readPixel x y = w.readPixel x y := by
  rw [readPixel, readPixel, offset, offset, hinfo, hlen, hbuf]

/-- **Erasing a drawn cursor** shows what painting the bar in the background shows. -/
theorem readPixel_eraseCursor (hshown : w.cursorShown = false) (pen : Pen) (x y : ℕ) :
    (pen.apply w.drawCursor).eraseCursor.readPixel x y =
      (w.paintCursor pen.bg).readPixel x y := by
  set g := w.parts w.barPixels
  have hdraw : w.drawCursor = { overlay g w.fg w with cursorShown := true } := by
    rw [drawCursor, hshown, ← w.paintCursor_eq]
    rfl
  rw [hdraw]
  set v : FrameBufferWriter := pen.apply { overlay g w.fg w with cursorShown := true }
  have hpaint : v.paintCursor pen.bg = overlay g pen.bg v :=
    w.overlays_paintCursor pen.bg v ⟨rfl, rfl, rfl, rfl, rfl⟩
  have herase : v.eraseCursor = { overlay g pen.bg v with cursorShown := false } := by
    rw [← hpaint]
    rfl
  rw [herase, w.paintCursor_eq]
  have hbuf := congrArg buffer (overlay_same (v := w) g w.fg pen.bg)
  exact readPixel_congr (v := { overlay g pen.bg v with cursorShown := false })
    (w := overlay g pen.bg w) rfl rfl hbuf x y

/-- The bar has a color: each of its bytes is that part of the color which the last pixel of the bar
to have this byte would hold. -/
def BarHolds (w : FrameBufferWriter) (color : Color) : Prop :=
  ∀ i before q after, w.barPixels = before ++ q :: after → w.HasByte i q →
    (∀ q' ∈ after, ¬ w.HasByte i q') → w.buffer i = w.part (i - w.offset q.1 q.2) color

/-- The pixel a byte is painted by. -/
theorem parts_eq_some_iff {ps : List (ℕ × ℕ)} {i : ℕ} {f : Color → UInt8} :
    w.parts ps i = some f ↔ ∃ before q after, ps = before ++ q :: after ∧ w.HasByte i q ∧
      (∀ q' ∈ after, ¬ w.HasByte i q') ∧ w.part (i - w.offset q.1 q.2) = f := by
  rw [parts, Option.map_eq_some_iff]
  simp only [List.find?_eq_some_iff_append, decide_eq_true_eq, Bool.not_eq_true',
    decide_eq_false_iff_not, List.reverse_eq_iff, List.reverse_append, List.reverse_cons,
    List.append_assoc, List.singleton_append]
  constructor
  · rintro ⟨q, ⟨hbyte, after, before, rfl, hafter⟩, rfl⟩
    exact ⟨before.reverse, q, after.reverse, rfl, hbyte,
      fun q' hq' => hafter q' (List.mem_reverse.mp hq'), rfl⟩
  · rintro ⟨before, q, after, rfl, hbyte, hafter, rfl⟩
    refine ⟨q, ⟨hbyte, after.reverse, before.reverse, ?_, fun q' hq' => ?_⟩, rfl⟩
    · rw [List.reverse_reverse, List.reverse_reverse]
    · exact hafter q' (List.mem_reverse.mp hq')

/-- **The bar painted in a color** changes no byte just when it has the color. -/
theorem buffer_paintCursor_eq_iff :
    (∀ i, (w.paintCursor color).buffer i = w.buffer i) ↔ w.BarHolds color := by
  simp only [buffer_paintCursor]
  constructor
  · intro hsame i before q after hcut hbyte hafter
    have hpart := parts_eq_some_iff.mpr ⟨before, q, after, hcut, hbyte, hafter, rfl⟩
    have hi := hsame i
    rw [hpart] at hi
    exact hi.symm
  · intro hholds i
    cases hpart : w.parts w.barPixels i with
    | none => rfl
    | some f =>
      obtain ⟨before, q, after, hcut, hbyte, hafter, rfl⟩ := parts_eq_some_iff.mp hpart
      exact (hholds i before q after hcut hbyte hafter).symm

/-- A color tells the bytes it is read from. -/
theorem buffer_eq_of_colorAt {i j : ℕ} (hinfo : v.info = w.info) (h : v.colorAt i = w.colorAt i)
    (hj : j < 3) : v.buffer (i + j) = w.buffer (i + j) := by
  rw [colorAt, colorAt, hinfo] at h
  interval_cases j <;> split at h <;> simp_all

/-- **The picture is the same just when the bar had the color.** -/
theorem paintCursor_eq_iff (hfits : w.BarFits) :
    (∀ x y, w.PixelFits x y → (w.paintCursor color).readPixel x y = w.readPixel x y) ↔
      w.BarHolds color := by
  have hpaint := w.paintCursor_eq color
  have hinfo : (w.paintCursor color).info = w.info := by
    rw [hpaint]
    rfl
  have hlen : (w.paintCursor color).bufferLen = w.bufferLen := by
    rw [hpaint]
    rfl
  rw [← buffer_paintCursor_eq_iff]
  refine ⟨fun hsame i => ?_, fun hsame x y _ => readPixel_congr hinfo hlen (funext hsame) x y⟩
  cases hpart : w.parts w.barPixels i with
  | none => rw [buffer_paintCursor, hpart, Option.elim_none]
  | some f =>
    -- the byte is one of a pixel of the bar, which is read
    obtain ⟨before, q, after, hcut, ⟨hstored, hle, hlt⟩, -, -⟩ := parts_eq_some_iff.mp hpart
    have hq : q ∈ w.bar := by
      rw [← mem_barPixels, hcut]
      exact List.mem_append_right _ List.mem_cons_self
    have hstored' : (w.paintCursor color).Stored q.1 q.2 := by
      rwa [Stored, OnScreen, offset, hinfo, hlen]
    have hread := hsame q.1 q.2 (hfits.pixels q hq)
    rw [hstored'.readPixel_eq, hstored.readPixel_eq, offset, hinfo, ← offset] at hread
    obtain ⟨j, rfl⟩ := Nat.exists_eq_add_of_le hle
    exact buffer_eq_of_colorAt hinfo (Option.some.inj hread) (by omega)

/-- **The bar painted in a color** changes nothing where it had the color. -/
theorem PixelsApart.paintCursor_eq_iff (h : w.PixelsApart) (hfits : w.BarFits) :
    (∀ x y, w.PixelFits x y → (w.paintCursor color).readPixel x y = w.readPixel x y) ↔
      ∀ q ∈ w.bar, w.Stored q.1 q.2 → w.readPixel q.1 q.2 = some color := by
  have hp := h.paintCursor_paints color
  constructor
  · intro hsame q hq hstored
    have hread := hp.inside q hq
    rw [hsame q.1 q.2 (hfits.pixels q hq), hstored.readPixel_eq] at hread
    rw [hstored.readPixel_eq, hread]
    rfl
  · intro hbar x y _
    by_cases hq : (x, y) ∈ w.bar
    · rw [hp.inside (x, y) hq]
      by_cases hstored : w.Stored x y
      · rw [hbar (x, y) hq hstored]
        rfl
      · rw [readPixel_of_not_stored hstored]
        rfl
    · exact hp.outside (x, y) hq

theorem eraseCursor_frame (w : FrameBufferWriter) :
    ∃ buf, w.eraseCursor = { w with buffer := buf, cursorShown := false } := by
  rw [eraseCursor]
  rcases hshown : w.cursorShown with _ | _
  · exact ⟨w.buffer, (with_cursorShown hshown).symm⟩
  · rw [w.paintCursor_eq]
    exact ⟨_, rfl⟩

theorem drawCursor_frame (w : FrameBufferWriter) :
    ∃ buf, w.drawCursor = { w with buffer := buf, cursorShown := true } := by
  rw [drawCursor]
  rcases hshown : w.cursorShown with _ | _
  · rw [w.paintCursor_eq]
    exact ⟨_, rfl⟩
  · exact ⟨w.buffer, (with_cursorShown hshown).symm⟩

/-- Drawing does not change the pen. -/
theorem pen_drawCursor (w : FrameBufferWriter) : w.pen.apply w.drawCursor = w.drawCursor := by
  obtain ⟨buf, hdraw⟩ := w.drawCursor_frame
  rw [hdraw]
  rfl

/-! ## On the machine -/

/-- Whether the bar fits is a matter of its place. -/
theorem BarFits.congr (h : w.BarFits) (hv : SamePlace w v) : v.BarFits := by
  obtain ⟨hbottom, hright, hpixels⟩ := h
  simp only [bar, PixelFits, OnScreen, offset, cellHeight, cellWidth, ← hv.info, ← hv.x, ← hv.y,
    ← hv.scale] at hbottom hright hpixels
  exact ⟨hbottom, hright, hpixels⟩

/-- **Drawing the cursor** overflows where the bar does not fit, and only there. -/
theorem machine_drawCursor_iff (hshown : w.cursorShown = false) :
    Machine.drawCursor w = .ok v ↔ w.BarFits ∧ v = w.drawCursor := by
  rw [Machine.drawCursor, drawCursor, hshown]
  constructor
  · intro h
    obtain ⟨w', hw', h⟩ := Checked.bind_eq_ok.mp h
    have hfits := barFits_of_paintCursor hw'
    obtain rfl := Except.ok.inj
      (((paintCursor_draws (fun _ : True => hfits) w.fg).gives.eq_ok trivial).symm.trans hw')
    exact ⟨hfits, (Except.ok.inj h).symm⟩
  · rintro ⟨hfits, rfl⟩
    exact Checked.bind_eq_ok.mpr ⟨_,
      (paintCursor_draws (fun _ : True => hfits) w.fg).gives.eq_ok trivial, rfl⟩

/-- **Erasing it** does not overflow where the bar fits. -/
theorem BarFits.machine_eraseCursor (h : w.BarFits) :
    Machine.eraseCursor w = .ok w.eraseCursor := by
  rw [Machine.eraseCursor, eraseCursor]
  split_ifs
  · rfl
  · exact Checked.bind_eq_ok.mpr ⟨_,
      (paintCursor_draws (fun _ : True => h) w.bg).gives.eq_ok trivial, rfl⟩

/-- Both pictures are read alike. -/
theorem machine_readPixel_eq_iff (hinfo : v.info = w.info) :
    Machine.readPixel v x y = Machine.readPixel w x y ↔
      (w.PixelFits x y → v.readPixel x y = w.readPixel x y) := by
  have hfits : v.PixelFits x y ↔ w.PixelFits x y := by
    rw [PixelFits, PixelFits, OnScreen, OnScreen, offset, offset, hinfo]
  rw [Machine.readPixel_eq, Machine.readPixel_eq]
  by_cases h : w.PixelFits x y
  · rw [if_pos (hfits.mpr h), if_pos h, Except.ok.injEq, forall_prop_of_true h]
  · rw [if_neg (hfits.not.mpr h), if_neg h]
    exact iff_of_true rfl fun h' => absurd h' h

/-- **The cursor leaves no trace**: it is drawn, the pen changes, it is erased, and every pixel is
read as before. -/
def Restores (w : FrameBufferWriter) (pen : Pen) : Prop :=
  ∃ w₁ w₂, Machine.drawCursor w = .ok w₁ ∧ Machine.eraseCursor (pen.apply w₁) = .ok w₂ ∧
    ∀ x y, Machine.readPixel w₂ x y = Machine.readPixel w x y

theorem restores_iff (hshown : w.cursorShown = false) (pen : Pen) :
    w.Restores pen ↔ w.BarFits ∧
      ∀ x y, w.PixelFits x y → (w.paintCursor pen.bg).readPixel x y = w.readPixel x y := by
  obtain ⟨buf, hdraw⟩ := w.drawCursor_frame
  have hplace : SamePlace w (pen.apply w.drawCursor) := by
    rw [hdraw]
    exact ⟨rfl, rfl, rfl, rfl, rfl⟩
  obtain ⟨buf', herase⟩ := (pen.apply w.drawCursor).eraseCursor_frame
  have hinfo : (pen.apply w.drawCursor).eraseCursor.info = w.info := by
    rw [herase]
    exact hplace.info
  have hread : (∀ x y, Machine.readPixel (pen.apply w.drawCursor).eraseCursor x y =
      Machine.readPixel w x y) ↔
      ∀ x y, w.PixelFits x y → (w.paintCursor pen.bg).readPixel x y = w.readPixel x y := by
    simp only [machine_readPixel_eq_iff hinfo, readPixel_eraseCursor hshown]
  constructor
  · rintro ⟨w₁, w₂, hw₁, hw₂, hsame⟩
    obtain ⟨hfits, rfl⟩ := (machine_drawCursor_iff hshown).mp hw₁
    obtain rfl := Except.ok.inj ((hfits.congr hplace).machine_eraseCursor.symm.trans hw₂)
    exact ⟨hfits, hread.mp hsame⟩
  · rintro ⟨hfits, hsame⟩
    exact ⟨_, _, (machine_drawCursor_iff hshown).mpr ⟨hfits, rfl⟩,
      (hfits.congr hplace).machine_eraseCursor, hread.mpr hsame⟩

/-! ## Back over a character, and away with a newline -/

/-- Drawing or erasing the cursor leaves the rest of the picture alone. -/
theorem PixelsApart.readPixel_eraseCursor_of_notMem (h : w.PixelsApart) (hq : (x, y) ∉ w.bar) :
    w.eraseCursor.readPixel x y = w.readPixel x y := by
  rw [eraseCursor]
  split_ifs
  · rfl
  · exact (h.paintCursor_paints w.bg).outside (x, y) hq

theorem PixelsApart.readPixel_drawCursor_of_notMem (h : w.PixelsApart) (hq : (x, y) ∉ w.bar) :
    w.drawCursor.readPixel x y = w.readPixel x y := by
  rw [drawCursor]
  split_ifs
  · rfl
  · exact (h.paintCursor_paints w.fg).outside (x, y) hq

/-- The row of text that row `r` is after a newline in it. -/
def rowAfter (rows r : ℕ) : ℕ := if r + 1 < rows then r else r - 1

/-- **A new line keeps the row it leaves**, and begins below it. -/
theorem Layout.newLine_keeps_row (h : Layout w rows cols) (hrows : 2 ≤ rows) (hcols : 0 < cols)
    (hr : r < rows) (hy : w.yPos = r * w.cellHeight) :
    ∃ v, w.newLine = some v ∧ Layout v rows cols ∧ v.cellHeight = w.cellHeight ∧
      v.yPos = (rowAfter rows r + 1) * w.cellHeight ∧
      ∀ x < w.info.width, ∀ dy < w.cellHeight,
        v.readPixel x (rowAfter rows r * w.cellHeight + dy) =
          w.readPixel x (r * w.cellHeight + dy) := by
  have hfit := h.le_rows_iff (r + 1 + 1)
  rw [Nat.add_mul, Nat.add_mul, Nat.one_mul, ← hy] at hfit
  rw [newLine, rowAfter]
  dsimp only
  by_cases hlast : r + 1 < rows
  · rw [if_pos hlast, if_neg (by omega), Nat.add_mul, Nat.one_mul, ← hy]
    exact ⟨_, rfl, h.congr rfl rfl rfl, rfl, rfl, fun x _ dy _ => rfl⟩
  · -- everything moves up by a row
    rw [if_neg hlast, if_pos (by omega), Nat.sub_add_cancel (by omega)]
    have hlayout : Layout { w with yPos := w.yPos + w.cellHeight, xPos := 0 } rows cols :=
      h.congr rfl rfl rfl
    have hheight := (h.le_rows_iff 2).mp hrows
    have hch := cellHeight_pos h.scale_pos
    obtain ⟨buf, hbuf, hread⟩ := hlayout.scrollUp_spec
      (h.width_lt (Nat.mul_pos hcols (cellWidth_pos h.scale_pos)))
      (show w.cellHeight < w.info.height by omega)
    have hup : (r - 1) * w.cellHeight + w.cellHeight = r * w.cellHeight := by
      rw [← Nat.succ_mul, Nat.succ_eq_add_one, Nat.sub_add_cancel (by omega)]
    have hbottom : r * w.cellHeight + w.cellHeight ≤ w.info.height := by
      have := (h.le_rows_iff (r + 1)).mp hr
      rwa [Nat.add_mul, Nat.one_mul] at this
    rw [hbuf]
    refine ⟨_, rfl, h.congr rfl rfl rfl, rfl, ?_, fun x hx dy hdy => ?_⟩
    · exact (Nat.add_sub_cancel _ _).trans hy
    · have hbelow : (r - 1) * w.cellHeight + dy + w.cellHeight = r * w.cellHeight + dy := by omega
      refine (hread x _ ⟨hx, ?_⟩).trans ((if_pos ?_).trans ?_)
      · show (r - 1) * w.cellHeight + dy < w.info.height
        omega
      · show (r - 1) * w.cellHeight + dy + w.cellHeight < w.info.height
        omega
      · exact congrArg (w.readPixel x) hbelow

/-- **A newline keeps the row it leaves**, as erasing the cursor leaves it. -/
theorem Layout.writeByte_newline (h : Layout w rows cols) (hrows : 2 ≤ rows) (hcols : 0 < cols)
    (hr : r < rows) (hy : w.yPos = r * w.cellHeight) (hstate : w.escapeState = .normal) :
    ∃ v, w.writeByte 0x0a = some v ∧ ∀ x < w.info.width, ∀ dy < w.cellHeight,
      v.readPixel x (rowAfter rows r * w.cellHeight + dy) =
        w.eraseCursor.readPixel x (r * w.cellHeight + dy) := by
  obtain ⟨buf, herase⟩ := w.eraseCursor_frame
  have hbyte : w.writeByte 0x0a = w.eraseCursor.newLine.bind fun w => some w.drawCursor := by
    rw [writeByte, hstate]
    rfl
  have herased : Layout { w with buffer := buf, cursorShown := false } rows cols :=
    h.congr rfl rfl rfl
  obtain ⟨v, hv, hlayout, hch, hyv, hread⟩ := herased.newLine_keeps_row hrows hcols hr hy
  rw [hbyte, herase, hv]
  refine ⟨_, rfl, fun x hx dy hdy => ?_⟩
  rw [hlayout.pixelsApart.readPixel_drawCursor_of_notMem]
  · exact hread x hx dy hdy
  · intro hbar
    have hcell : v.yPos ≤ rowAfter rows r * w.cellHeight + dy := (bar_subset hbar).2.1
    change v.yPos = (rowAfter rows r + 1) * w.cellHeight at hyv
    rw [hyv, Nat.add_mul, Nat.one_mul] at hcell
    omega

/-- A backspace byte moves the cursor a cell to the left. -/
theorem writeByte_back_eq (hstate : w.escapeState = .normal) (hx : w.cellWidth ≤ w.xPos) :
    w.writeByte 0x08 =
      some (drawCursor { w.eraseCursor with xPos := w.xPos - w.cellWidth }) := by
  obtain ⟨buf, herase⟩ := w.eraseCursor_frame
  rw [writeByte, hstate]
  dsimp only
  rw [if_neg (by decide), if_neg (by decide), if_pos rfl, herase]
  exact congrArg (fun v => some (drawCursor v)) (if_pos hx)

/-- The bar of a cursor on a cell is its bottom. -/
theorem mem_bar_iff (hx : w.xPos = x) (hy : w.yPos = y) {dx dy : ℕ} (hdx : dx < w.cellWidth)
    (hdy : dy < w.cellHeight) :
    (x + dx, y + dy) ∈ w.bar ↔ w.cellHeight ≤ dy + cursorHeight * w.scaleFactor := by
  have hle : cursorHeight * w.scaleFactor ≤ w.cellHeight := Nat.mul_le_mul_right _ (by decide)
  simp only [bar, rect, Set.mem_ofPred_eq, hx, hy]
  omega

/-- **Back over a cell, and away with a newline**: the bottom of the cell is background, the rest of
it is kept. -/
theorem Layout.back_newline (h : Layout w rows cols) (hrows : 2 ≤ rows) (hr : r < rows)
    (hc : c < cols) (hx : w.xPos = (c + 1) * w.cellWidth) (hy : w.yPos = r * w.cellHeight)
    (hstate : w.escapeState = .normal) :
    ∃ v, w.writeString [0x08, 0x0a] = some v ∧ ∀ dy < w.cellHeight, ∀ dx < w.cellWidth,
      v.readPixel (c * w.cellWidth + dx) (rowAfter rows r * w.cellHeight + dy) =
        if w.cellHeight ≤ dy + cursorHeight * w.scaleFactor then some w.bg
        else w.readPixel (c * w.cellWidth + dx) (r * w.cellHeight + dy) := by
  rw [Nat.add_mul, Nat.one_mul] at hx
  obtain ⟨buf, herase⟩ := w.eraseCursor_frame
  have hback := writeByte_back_eq hstate (show w.cellWidth ≤ w.xPos by omega)
  rw [herase, Nat.sub_eq_of_eq_add hx] at hback
  -- the cursor on the cell, not drawn yet
  set m : FrameBufferWriter := { w with
    buffer := buf, cursorShown := false, xPos := c * w.cellWidth }
  obtain ⟨buf', hdraw⟩ := m.drawCursor_frame
  have hlayout : Layout m.drawCursor rows cols := hdraw ▸ h.congr rfl rfl rfl
  have hcell : m.drawCursor.cellHeight = w.cellHeight := by rw [hdraw]; rfl
  obtain ⟨v, hv, hread⟩ := hlayout.writeByte_newline hrows (by omega) hr
    (by rw [hcell, ← hy, hdraw]) (by rw [hdraw]; exact hstate)
  rw [hcell, show m.drawCursor.info = w.info by rw [hdraw]] at hread
  refine ⟨v, ?_, fun dy hdy dx hdx => ?_⟩
  · rw [writeString, List.foldlM_cons, show sent 0x08 = 0x08 from rfl, hback]
    exact (bind_pure _).trans hv
  · have hscreen : w.OnScreen (c * w.cellWidth + dx) (r * w.cellHeight + dy) :=
      ⟨h.width_lt (Grid.lt hc hdx), (Grid.lt hr hdy).trans_le ((h.le_rows_iff rows).mp le_rfl)⟩
    -- the cursor was to the right of the cell
    have hkept : m.readPixel (c * w.cellWidth + dx) (r * w.cellHeight + dy) =
        w.readPixel (c * w.cellWidth + dx) (r * w.cellHeight + dy) := by
      rw [← h.pixelsApart.readPixel_eraseCursor_of_notMem, herase]
      · rfl
      · intro hbar
        have hright := hbar.1.1
        dsimp only at hright
        omega
    have hmem := mem_bar_iff (w := m) rfl hy hdx hdy
    have hpaint := (show m.PixelsApart from h.pixelsApart).paintCursor_paints w.bg
    rw [hread _ hscreen.1 dy hdy, ← m.pen_drawCursor, readPixel_eraseCursor rfl,
      show m.pen.bg = w.bg from rfl]
    split_ifs with hbar
    · rw [hpaint.inside _ (hmem.mpr hbar), hkept, h.readPixel_eq hscreen]
      rfl
    · rw [hpaint.outside _ (hmem.not.mpr hbar), hkept]

/-- A glyph is shown in a cell, `s` times enlarged. -/
def ShowsAt (u : FrameBufferWriter) (s r c : ℕ) (a : Ink) : Prop :=
  ∀ dy < charHeight * s, ∀ dx < charWidth * s,
    Machine.readPixel u (c * (charWidth * s) + dx) (r * (charHeight * s) + dy) =
      .ok (some (a.color (dy / s) (dx / s)))

theorem showsAt_iff (hfits : Fits u.info) {s : ℕ} {a : Ink} : u.ShowsAt s r c a ↔
    ∀ dy < charHeight * s, ∀ dx < charWidth * s,
      u.readPixel (c * (charWidth * s) + dx) (r * (charHeight * s) + dy) =
        some (a.color (dy / s) (dx / s)) := by
  simp only [ShowsAt, Machine.readPixel_eq, eq_true (hfits.pixelFits _ _), if_true,
    Except.ok.injEq]

/-- **Back over a character and away with a newline**, on the machine: the glyph is intact if its
bottom is background, and only then. -/
theorem Layout.machine_back_newline (h : Layout u rows cols) (hinv : u.Inv) (hfits : Fits u.info)
    (hrows : 2 ≤ rows) (hr : r < rows) (hc : c < cols) (hx : u.xPos = (c + 1) * u.cellWidth)
    (hy : u.yPos = r * u.cellHeight) (hstate : u.escapeState = .normal) {a : Ink}
    (hglyph : u.ShowsAt u.scaleFactor r c a) :
    ∃ u', Machine.writeString u [0x08, 0x0a] = .ok u' ∧
      (u'.ShowsAt u.scaleFactor (rowAfter rows r) c a ↔
        ∀ row < charHeight, charHeight - cursorHeight ≤ row → ∀ col < charWidth,
          a.color row col = u.bg) := by
  obtain ⟨u', hu', hread⟩ := h.back_newline hrows hr hc hx hy hstate
  obtain ⟨v, hv, ⟨-, hinfo⟩, hgives⟩ := hinv.writeString_keeps [0x08, 0x0a]
  obtain rfl := Option.some.inj (hu'.symm.trans hv)
  rw [showsAt_iff hfits] at hglyph
  refine ⟨u', hgives.eq_ok hfits, ?_⟩
  rw [showsAt_iff (hinfo ▸ hfits)]
  have hs := h.scale_pos
  constructor
  · -- the first pixel of each enlarged one
    intro hsame row hrow hlow col hcol
    have hdy : row * u.scaleFactor < u.cellHeight := Nat.mul_lt_mul_of_pos_right hrow hs
    have hdx : col * u.scaleFactor < u.cellWidth := Nat.mul_lt_mul_of_pos_right hcol hs
    have hbar : u.cellHeight ≤ row * u.scaleFactor + cursorHeight * u.scaleFactor := by
      rw [← Nat.add_mul]
      exact Nat.mul_le_mul_right _ (by omega)
    have hpixel := (hread _ hdy _ hdx).symm.trans (hsame _ hdy _ hdx)
    rw [if_pos hbar, Nat.mul_div_cancel _ hs, Nat.mul_div_cancel _ hs] at hpixel
    exact (Option.some.inj hpixel).symm
  · intro hbg dy hdy dx hdx
    refine (hread dy hdy dx hdx).trans ?_
    split_ifs with hbar
    · rw [hbg]
      · exact (Nat.div_lt_iff_lt_mul hs).mpr hdy
      · rw [Nat.le_div_iff_mul_le hs, Nat.sub_mul]
        exact Nat.sub_le_of_le_add hbar
      · exact (Nat.div_lt_iff_lt_mul hs).mpr hdx
    · exact hglyph dy hdy dx hdx

/-- **A cursor leaves what it passes over intact just where its bar was background before.**  For
every writer with the cursor not drawn, whatever colors are selected in between: erasing the drawn
cursor restores the picture exactly if the bar fits `usize` and its bytes are those of the
background of that moment.  Where pixels are apart, that is: if every pixel of the bar has that
color.  Going back over a character and away with a newline leaves it intact if the bottom of its
glyph, as high as the cursor, is background, and only then. -/
theorem cursor_restores_iff (w : FrameBufferWriter) (hshown : w.cursorShown = false) :
    (∀ pen : Pen,
      (w.Restores pen ↔ w.BarFits ∧ w.BarHolds pen.bg) ∧
      (w.PixelsApart → (w.Restores pen ↔ w.BarFits ∧
        ∀ q ∈ w.bar, w.Stored q.1 q.2 → w.readPixel q.1 q.2 = some pen.bg))) ∧
    (w.BarFits → w.escapeState = .normal → w.csiPos ≤ 8 → ∀ ps : List (List UInt8),
      (∀ p ∈ ps, p.length ≤ 8 ∧ ∀ byte ∈ p, isParam byte = true) →
        ∃ (w₁ : FrameBufferWriter) (pen : Pen), Machine.drawCursor w = .ok w₁ ∧
          Machine.writeString w₁ (ps.flatMap sgr) = .ok (pen.apply w₁)) ∧
    ∀ (u : FrameBufferWriter) (rows cols r c : ℕ) (a : Ink), Layout u rows cols → u.Inv →
      Fits u.info → 2 ≤ rows → r < rows → c < cols → u.xPos = (c + 1) * u.cellWidth →
      u.yPos = r * u.cellHeight → u.escapeState = .normal → u.ShowsAt u.scaleFactor r c a →
      ∃ u', Machine.writeString u [0x08, 0x0a] = .ok u' ∧
        (u'.ShowsAt u.scaleFactor (rowAfter rows r) c a ↔
          ∀ row < charHeight, charHeight - cursorHeight ≤ row → ∀ col < charWidth,
            a.color row col = u.bg) := by
  refine ⟨fun pen => ⟨?_, fun hapart => ?_⟩, fun hfits hstate hpos ps hps => ?_,
    fun u rows cols r c a h hinv hfits hrows hr hc hx hy hstate hglyph =>
      h.machine_back_newline hinv hfits hrows hr hc hx hy hstate hglyph⟩
  · rw [restores_iff hshown]
    exact and_congr_right paintCursor_eq_iff
  · rw [restores_iff hshown]
    exact and_congr_right fun hfits => hapart.paintCursor_eq_iff hfits
  · obtain ⟨buf, hdraw⟩ := w.drawCursor_frame
    have hcell : w.drawCursor.cellWidth < 2 ^ 64 := by
      have hle := w.cellWidth_le_cellHeight
      have hbottom := hfits.bottom
      rw [hdraw]
      show w.cellWidth < 2 ^ 64
      omega
    obtain ⟨pen, hpen⟩ := machine_sgrs hcell (by rw [hdraw]; exact hpos)
      (by rw [hdraw]; exact hstate) hps
    exact ⟨w.drawCursor, pen, (machine_drawCursor_iff hshown).mpr ⟨hfits, rfl⟩, hpen⟩

/-- A screen of a cell, all white but for its two bottom lines. -/
def whiteCell : FrameBufferWriter :=
  new (fun i => if i < 336 then 255 else 0) 384 ⟨8, 16, .rgb, 3, 8⟩

theorem barFits_whiteCell : whiteCell.BarFits :=
  (inv_new (fun i => if i < 336 then 255 else 0) (by decide)).barFits
    ⟨by decide, by decide, by decide, by decide, by decide⟩

/-- The cursor is drawn over the bottom lines, and erased they are black again. -/
theorem cursor_restores_iff_whiteCell : ∃ w₁ w₂, Machine.drawCursor whiteCell = .ok w₁ ∧
    Machine.readPixel w₁ 0 15 = .ok (some (170, 170, 170)) ∧ Machine.eraseCursor w₁ = .ok w₂ ∧
      ∀ x y, Machine.readPixel w₂ x y = Machine.readPixel whiteCell x y := by
  have hbar : ∀ q ∈ whiteCell.bar, whiteCell.Stored q.1 q.2 →
      whiteCell.readPixel q.1 q.2 = some (0, 0, 0) := by
    intro q hq hstored
    have hlow : 14 ≤ q.2 := hq.2.1
    rw [hstored.readPixel_eq]
    refine congrArg some (colorAt_eq_gray.mpr fun j _ => if_neg ?_)
    show ¬ (q.2 * 8 + q.1) * 3 + j < 336
    omega
  obtain ⟨w₁, w₂, hdraw, herase, hsame⟩ :=
    (((cursor_restores_iff whiteCell rfl).1 whiteCell.pen).2
      (pixelsApart_of_le (by decide) (by decide))).mpr ⟨barFits_whiteCell, hbar⟩
  obtain rfl := ((machine_drawCursor_iff rfl).mp hdraw).2
  rw [pen_drawCursor] at herase
  exact ⟨_, w₂, hdraw, by decide +kernel, herase, hsame⟩

/-- **The cursor takes the bottom of a `g`**: written, gone back over and left with a newline; and a
white pixel is black after the cursor was drawn over it and erased. -/
theorem cursor_damages_descender :
    (∃ w w', Machine.writeString (fresh (fun _ => 0) 4608 ⟨32, 48, .rgb, 3, 32⟩ 1) [0x67] = .ok w ∧
      Machine.readPixel w 1 14 = .ok (some (170, 170, 170)) ∧
      Machine.writeString w [0x08, 0x0a] = .ok w' ∧
      Machine.readPixel w' 1 14 = .ok (some (0, 0, 0))) ∧
    ∃ w w₁ w₂ : FrameBufferWriter, w.cursorShown = false ∧
      Machine.readPixel w 0 15 = .ok (some (255, 255, 255)) ∧
      Machine.drawCursor w = .ok w₁ ∧ Machine.eraseCursor w₁ = .ok w₂ ∧
      Machine.readPixel w₂ 0 15 = .ok (some (0, 0, 0)) := by
  have hgo : (Machine.writeString (fresh (fun _ => 0) 4608 ⟨32, 48, .rgb, 3, 32⟩ 1)
      [0x67]).toOption.any (fun w =>
        decide (Machine.readPixel w 1 14 = .ok (some (170, 170, 170))) &&
        (Machine.writeString w [0x08, 0x0a]).toOption.any fun w' =>
          decide (Machine.readPixel w' 1 14 = .ok (some (0, 0, 0)))) = true := by
    decide +kernel
  have hgo' : (Machine.drawCursor (new (fun _ => 255) 4608 ⟨32, 48, .rgb, 3, 32⟩)).toOption.any
      (fun w => (Machine.eraseCursor w).toOption.any fun w' =>
        decide (Machine.readPixel w' 0 15 = .ok (some (0, 0, 0)))) = true := by
    decide +kernel
  simp only [Option.any_eq_true, Bool.and_eq_true, decide_eq_true_eq, Checked.toOption_eq_some]
    at hgo hgo'
  obtain ⟨w, hw, hbefore, w', hw', hafter⟩ := hgo
  obtain ⟨w₁, hw₁, w₂, hw₂, hpixel⟩ := hgo'
  exact ⟨⟨w, w', hw, hbefore, hw', hafter⟩, _, w₁, w₂, rfl, by decide, hw₁, hw₂, hpixel⟩

end YontiOs.Framebuffer.FrameBufferWriter
