import YontiOs.Framebuffer.Font

/-!
# Framebuffer/Writer — the framebuffer console

`FrameBufferWriter` of `framebuffer.rs`: a text cursor over a byte buffer of pixels, with a small
state machine for escape sequences.  Offsets and positions are natural numbers here; `Machine` has
them as the `usize` they are, and `Offsets` and `Cursor` say where both agree.  What can panic
otherwise is a slice of the buffer or of the collected escape sequence, and such a method returns an
`Option`.
-/

namespace YontiOs.Framebuffer

/-- Red, green and blue. -/
abbrev Color := UInt8 × UInt8 × UInt8

inductive PixelFormat
  | rgb
  | bgr
  | u8
  | unknown
  deriving DecidableEq, Repr

structure FrameBufferInfo where
  width : ℕ
  height : ℕ
  pixelFormat : PixelFormat
  bytesPerPixel : ℕ
  stride : ℕ

def cursorHeight : ℕ := 2
def minScale : ℕ := 1
def maxScale : ℕ := 4

def ansiColors : List Color :=
  [(0, 0, 0), (170, 0, 0), (0, 170, 0), (170, 85, 0), (0, 0, 170), (170, 0, 170), (0, 170, 170),
    (170, 170, 170)]

inductive EscapeState
  | normal
  | sawEsc
  | sawBracket
  | inCsi
  deriving DecidableEq, Repr

/-- `FrameBufferWriter`: the buffer is its bytes and its length. -/
structure FrameBufferWriter where
  buffer : ℕ → UInt8
  bufferLen : ℕ
  info : FrameBufferInfo
  xPos : ℕ
  yPos : ℕ
  fg : Color
  bg : Color
  scaleFactor : ℕ
  escapeState : EscapeState
  csiBuf : Vector UInt8 8
  csiPos : ℕ
  cursorShown : Bool

namespace FrameBufferWriter

def new (buffer : ℕ → UInt8) (bufferLen : ℕ) (info : FrameBufferInfo) : FrameBufferWriter where
  buffer := buffer
  bufferLen := bufferLen
  info := info
  xPos := 0
  yPos := 0
  fg := (170, 170, 170)
  bg := (0, 0, 0)
  scaleFactor := 1
  escapeState := .normal
  csiBuf := Vector.replicate 8 0
  csiPos := 0
  cursorShown := false

def cellWidth (w : FrameBufferWriter) : ℕ := charWidth * w.scaleFactor

def cellHeight (w : FrameBufferWriter) : ℕ := charHeight * w.scaleFactor

/-! ## Pixels -/

/-- Where the bytes of a pixel begin. -/
def offset (w : FrameBufferWriter) (x y : ℕ) : ℕ :=
  (y * w.info.stride + x) * w.info.bytesPerPixel

/-- `buffer[i] = a; buffer[i + 1] = b; buffer[i + 2] = c`. -/
def setBytes (w : FrameBufferWriter) (i : ℕ) (a b c : UInt8) : FrameBufferWriter :=
  { w with
    buffer := Function.update (Function.update (Function.update w.buffer i a) (i + 1) b) (i + 2) c }

def writePixel (w : FrameBufferWriter) (x y : ℕ) (r g b : UInt8) : FrameBufferWriter :=
  if x ≥ w.info.width ∨ y ≥ w.info.height then w
  else
    let offset := w.offset x y
    if offset + 2 ≥ w.bufferLen then w
    else
      match w.info.pixelFormat with
      | .rgb => w.setBytes offset r g b
      | .bgr => w.setBytes offset b g r
      | _ => w.setBytes offset r g b

def readPixel (w : FrameBufferWriter) (x y : ℕ) : Option Color :=
  if x ≥ w.info.width ∨ y ≥ w.info.height then none
  else
    let offset := w.offset x y
    if offset + 2 ≥ w.bufferLen then none
    else
      match w.info.pixelFormat with
      | .rgb => some (w.buffer offset, w.buffer (offset + 1), w.buffer (offset + 2))
      | .bgr => some (w.buffer (offset + 2), w.buffer (offset + 1), w.buffer offset)
      | _ => some (w.buffer offset, w.buffer (offset + 1), w.buffer (offset + 2))

/-- A loop `for i in 0..n`. -/
def forRange (n : ℕ) (f : FrameBufferWriter → ℕ → FrameBufferWriter) (w : FrameBufferWriter) :
    FrameBufferWriter :=
  (List.range n).foldl f w

def drawChar (w : FrameBufferWriter) (x y : ℕ) (c : UInt8) : FrameBufferWriter :=
  let s := w.scaleFactor
  w.forRange charHeight fun w row =>
    w.forRange charWidth fun w col =>
      let (r, g, b) := if lit c row col then w.fg else w.bg
      w.forRange s fun w sy =>
        w.forRange s fun w sx => w.writePixel (x + col * s + sx) (y + row * s + sy) r g b

/-- The bar of the cursor in one color, which `draw_cursor` and `erase_cursor` paint. -/
def paintCursor (w : FrameBufferWriter) (color : Color) : FrameBufferWriter :=
  let (r, g, b) := color
  let cursorH := cursorHeight * w.scaleFactor
  let cursorY := w.yPos + w.cellHeight - cursorH
  w.forRange cursorH fun w y =>
    w.forRange w.cellWidth fun w x => w.writePixel (w.xPos + x) (cursorY + y) r g b

def eraseCursor (w : FrameBufferWriter) : FrameBufferWriter :=
  if !w.cursorShown then w else { w.paintCursor w.bg with cursorShown := false }

def drawCursor (w : FrameBufferWriter) : FrameBufferWriter :=
  if w.cursorShown then w else { w.paintCursor w.fg with cursorShown := true }

/-! ## Lines -/

/-- `buffer.copy_within(start..end, 0)`. -/
def copyToFront (w : FrameBufferWriter) (start stop : ℕ) : Option FrameBufferWriter :=
  if start ≤ stop ∧ stop ≤ w.bufferLen then
    some { w with buffer := fun i => if i < stop - start then w.buffer (start + i) else w.buffer i }
  else none

/-- `buffer[start..end].fill(0)`. -/
def fillZero (w : FrameBufferWriter) (start stop : ℕ) : Option FrameBufferWriter :=
  if start ≤ stop ∧ stop ≤ w.bufferLen then
    some { w with buffer := fun i => if start ≤ i ∧ i < stop then 0 else w.buffer i }
  else none

def scrollUp (w : FrameBufferWriter) : Option FrameBufferWriter :=
  let bytesPerCharRow := w.info.stride * w.info.bytesPerPixel * w.cellHeight
  let totalBytes := w.info.height * w.info.stride * w.info.bytesPerPixel
  if totalBytes ≤ bytesPerCharRow then some w
  else do
    let w ← w.copyToFront bytesPerCharRow totalBytes
    w.fillZero (totalBytes - bytesPerCharRow) totalBytes

def newLine (w : FrameBufferWriter) : Option FrameBufferWriter :=
  let ch := w.cellHeight
  let w := { w with yPos := w.yPos + ch, xPos := 0 }
  if w.yPos + ch > w.info.height then do
    let w ← w.scrollUp
    some { w with yPos := w.yPos - ch }
  else some w

/-! ## Escape sequences -/

def isDigit (b : UInt8) : Bool := 0x30 ≤ b && b ≤ 0x39

/-- `str::parse::<u32>` on digits; anything else, nothing and overflow are errors. -/
def parseU32 (s : List UInt8) : Option ℕ :=
  if s = [] ∨ ¬ s.all isDigit then none
  else
    let n := s.foldl (fun n b => 10 * n + (b.toNat - 0x30)) 0
    if n < 2 ^ 32 then some n else none

/-- The colors that the parameter of `apply_sgr` selects. -/
def selectColors (w : FrameBufferWriter) (param : ℕ) : FrameBufferWriter :=
  if param = 0 then { w with fg := (170, 170, 170), bg := (0, 0, 0) }
  else if 30 ≤ param ∧ param ≤ 37 then { w with fg := ansiColors.getD (param - 30) w.fg }
  else if 40 ≤ param ∧ param ≤ 47 then { w with bg := ansiColors.getD (param - 40) w.bg }
  else w

def applySgr (w : FrameBufferWriter) : Option FrameBufferWriter :=
  -- `&csi_buf[..csi_pos]`: the bytes collected are digits and semicolons, so they are a `str`
  if w.csiPos ≤ 8 then
    some <| w.selectColors <|
      (parseU32 ((w.csiBuf.toList.take w.csiPos).takeWhile (· ≠ 0x3b))).getD 0
  else none

/-- A parameter byte of a control sequence. -/
def isParam (b : UInt8) : Bool := isDigit b || b == 0x3b

/-! ## Writing -/

/-- A printed byte, in state `Normal`. -/
def writeGlyph (w : FrameBufferWriter) (byte : UInt8) : Option FrameBufferWriter := do
  let w ← if w.xPos + w.cellWidth > w.info.width then w.eraseCursor.newLine else some w
  let w := w.drawChar w.xPos w.yPos byte
  some { w with cursorShown := false, xPos := w.xPos + w.cellWidth }.drawCursor

def writeByte (w : FrameBufferWriter) (byte : UInt8) : Option FrameBufferWriter :=
  match w.escapeState with
  | .normal =>
    if byte = 0x1b then some { w with escapeState := .sawEsc }
    else if byte = 0x0a then do
      let w ← w.eraseCursor.newLine
      some w.drawCursor
    else if byte = 0x08 then
      let w := w.eraseCursor
      let w := if w.xPos ≥ w.cellWidth then { w with xPos := w.xPos - w.cellWidth } else w
      some w.drawCursor
    else w.writeGlyph byte
  | .sawEsc =>
    some { w with escapeState := if byte = 0x5b then .sawBracket else .normal }
  | .sawBracket =>
    if isParam byte then
      some { w with escapeState := .inCsi, csiBuf := w.csiBuf.set 0 byte, csiPos := 1 }
    else some { w with escapeState := .normal }
  | .inCsi =>
    if h : isParam byte = true ∧ w.csiPos < 8 then
      some { w with csiBuf := w.csiBuf.set w.csiPos byte h.2, csiPos := w.csiPos + 1 }
    else if byte = 0x6d then do
      let w ← w.applySgr
      some { w with escapeState := .normal }
    else some { w with escapeState := .normal }

/-- What `write_string` sends for a byte of its string. -/
def sent (byte : UInt8) : UInt8 :=
  if (0x20 ≤ byte ∧ byte ≤ 0x7e) ∨ byte = 0x0a ∨ byte = 0x08 ∨ byte = 0x1b then byte else 0xfe

/-- `write_string(s)`, `s` by its bytes. -/
def writeString (w : FrameBufferWriter) (s : List UInt8) : Option FrameBufferWriter :=
  s.foldlM (fun w byte => w.writeByte (sent byte)) w

/-! ## The rest of the interface -/

def cursorPosition (w : FrameBufferWriter) : ℕ × ℕ := (w.xPos, w.yPos)

def clearScreen (w : FrameBufferWriter) : FrameBufferWriter :=
  { w with
    buffer := fun i => if i < w.bufferLen then 0 else w.buffer i
    xPos := 0
    yPos := 0
    cursorShown := false }.drawCursor

def scaleUp (w : FrameBufferWriter) : Bool × FrameBufferWriter :=
  if w.scaleFactor ≥ maxScale then (false, w)
  else (true, { w with scaleFactor := w.scaleFactor + 1 }.clearScreen)

def scaleDown (w : FrameBufferWriter) : Bool × FrameBufferWriter :=
  if w.scaleFactor ≤ minScale then (false, w)
  else (true, { w with scaleFactor := w.scaleFactor - 1 }.clearScreen)

end FrameBufferWriter

end YontiOs.Framebuffer
