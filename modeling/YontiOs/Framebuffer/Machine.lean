import YontiOs.Framebuffer.Writer
import YontiOs.Machinery.Checked

/-!
# Framebuffer/Machine — the framebuffer console with its machine arithmetic

The methods of `FrameBufferWriter` once more, with every sum, difference, product, index and slice
of `framebuffer.rs` as the checked operation it is.  `FrameBufferInfo` may hold any numbers here,
also those no framebuffer has, so nothing keeps an offset within `usize` but the code.
-/

namespace YontiOs.Framebuffer.Machine

open FrameBufferWriter (isParam parseU32 sent)
open Checked (fit add mul sub index forRange)

def cellWidth (w : FrameBufferWriter) : Checked ℕ := mul charWidth w.scaleFactor

def cellHeight (w : FrameBufferWriter) : Checked ℕ := mul charHeight w.scaleFactor

/-! ## Pixels -/

/-- `buffer[i] = a`. -/
def setByte (w : FrameBufferWriter) (i : ℕ) (a : UInt8) : Checked FrameBufferWriter :=
  index <| if i < w.bufferLen then some { w with buffer := Function.update w.buffer i a } else none

/-- `buffer[i] = a; buffer[i + 1] = b; buffer[i + 2] = c`. -/
def setBytes (w : FrameBufferWriter) (i : ℕ) (a b c : UInt8) : Checked FrameBufferWriter := do
  let w ← setByte w i a
  let i₁ ← add i 1
  let w ← setByte w i₁ b
  let i₂ ← add i 2
  setByte w i₂ c

def writePixel (w : FrameBufferWriter) (x y : ℕ) (r g b : UInt8) : Checked FrameBufferWriter :=
  if x ≥ w.info.width ∨ y ≥ w.info.height then .ok w
  else do
    let line ← mul y w.info.stride
    let pixel ← add line x
    let offset ← mul pixel w.info.bytesPerPixel
    let last ← add offset 2
    if last ≥ w.bufferLen then .ok w
    else
      match w.info.pixelFormat with
      | .rgb => setBytes w offset r g b
      | .bgr => setBytes w offset b g r
      | _ => setBytes w offset r g b

/-- `buffer[i]`. -/
def getByte (w : FrameBufferWriter) (i : ℕ) : Checked UInt8 :=
  index (if i < w.bufferLen then some (w.buffer i) else none)

/-- `buffer[i], buffer[i + 1], buffer[i + 2]`. -/
def getBytes (w : FrameBufferWriter) (i : ℕ) : Checked Color := do
  let a ← getByte w i
  let i₁ ← add i 1
  let b ← getByte w i₁
  let i₂ ← add i 2
  let c ← getByte w i₂
  .ok (a, b, c)

def readPixel (w : FrameBufferWriter) (x y : ℕ) : Checked (Option Color) :=
  if x ≥ w.info.width ∨ y ≥ w.info.height then .ok none
  else do
    let line ← mul y w.info.stride
    let pixel ← add line x
    let offset ← mul pixel w.info.bytesPerPixel
    let last ← add offset 2
    if last ≥ w.bufferLen then .ok none
    else do
      let (a, b, c) ← getBytes w offset
      match w.info.pixelFormat with
      | .rgb => .ok (some (a, b, c))
      | .bgr => .ok (some (c, b, a))
      | _ => .ok (some (a, b, c))

def drawChar (w : FrameBufferWriter) (x y : ℕ) (c : UInt8) : Checked FrameBufferWriter := do
  let glyphIdx ← (if fontOffset ≤ c.toNat ∧ c.toNat < fontOffset + fallbackIndex then
      sub c.toNat fontOffset
    else .ok fallbackIndex)
  let glyphStart ← mul glyphIdx charHeight
  let s := w.scaleFactor
  forRange charHeight (fun w row => do
    let i ← add glyphStart row
    let glyphByte ← index fontBasic[i]?
    forRange charWidth (fun w col => do
      let bit ← sub 7 col
      let color := if glyphByte &&& (1 <<< bit.toUInt8) != 0 then w.fg else w.bg
      forRange s (fun w sy =>
        forRange s (fun w sx => do
          let px ← mul col s
          let px ← add x px
          let px ← add px sx
          let py ← mul row s
          let py ← add y py
          let py ← add py sy
          writePixel w px py color.1 color.2.1 color.2.2) w) w) w) w

/-- The bar of the cursor in one color, which `draw_cursor` and `erase_cursor` paint. -/
def paintCursor (w : FrameBufferWriter) (color : Color) : Checked FrameBufferWriter := do
  let cw ← cellWidth w
  let ch ← cellHeight w
  let cursorH ← mul cursorHeight w.scaleFactor
  let bottom ← add w.yPos ch
  let cursorY ← sub bottom cursorH
  forRange cursorH (fun w y =>
    forRange cw (fun w x => do
      let px ← add w.xPos x
      let py ← add cursorY y
      writePixel w px py color.1 color.2.1 color.2.2) w) w

def eraseCursor (w : FrameBufferWriter) : Checked FrameBufferWriter :=
  if !w.cursorShown then .ok w
  else do
    let w ← paintCursor w w.bg
    .ok { w with cursorShown := false }

def drawCursor (w : FrameBufferWriter) : Checked FrameBufferWriter :=
  if w.cursorShown then .ok w
  else do
    let w ← paintCursor w w.fg
    .ok { w with cursorShown := true }

/-! ## Lines -/

/-- `scroll_up` once it has the bytes of a row of cells and of all lines. -/
def scrollBy (w : FrameBufferWriter) (bytesPerCharRow totalBytes : ℕ) : Checked FrameBufferWriter :=
  if totalBytes ≤ bytesPerCharRow then .ok w
  else do
    let w ← index (w.copyToFront bytesPerCharRow totalBytes)
    let clearStart ← sub totalBytes bytesPerCharRow
    index (w.fillZero clearStart totalBytes)

def scrollUp (w : FrameBufferWriter) : Checked FrameBufferWriter := do
  let ch ← cellHeight w
  let line ← mul w.info.stride w.info.bytesPerPixel
  let bytesPerCharRow ← mul line ch
  let pixels ← mul w.info.height w.info.stride
  let totalBytes ← mul pixels w.info.bytesPerPixel
  scrollBy w bytesPerCharRow totalBytes

def newLine (w : FrameBufferWriter) : Checked FrameBufferWriter := do
  let ch ← cellHeight w
  let y ← add w.yPos ch
  let bottom ← add y ch
  if bottom > w.info.height then do
    let w ← scrollUp { w with yPos := y, xPos := 0 }
    let y ← sub w.yPos ch
    .ok { w with yPos := y }
  else .ok { w with yPos := y, xPos := 0 }

/-! ## Escape sequences -/

/-- The colors that the parameter of `apply_sgr` selects. -/
def selectColors (w : FrameBufferWriter) (param : ℕ) : Checked FrameBufferWriter :=
  if param = 0 then .ok { w with fg := (170, 170, 170), bg := (0, 0, 0) }
  else if 30 ≤ param ∧ param ≤ 37 then do
    let i ← sub param 30
    let color ← index ansiColors[i]?
    .ok { w with fg := color }
  else if 40 ≤ param ∧ param ≤ 47 then do
    let i ← sub param 40
    let color ← index ansiColors[i]?
    .ok { w with bg := color }
  else .ok w

def applySgr (w : FrameBufferWriter) : Checked FrameBufferWriter := do
  let buf ← index (if w.csiPos ≤ 8 then some (w.csiBuf.toList.take w.csiPos) else none)
  selectColors w ((parseU32 (buf.takeWhile (· ≠ 0x3b))).getD 0)

/-- `csi_buf[i] = byte`. -/
def setCsi (w : FrameBufferWriter) (i : ℕ) (byte : UInt8) : Checked (Vector UInt8 8) :=
  index (if h : i < 8 then some (w.csiBuf.set i byte h) else none)

/-! ## Writing -/

/-- A printed byte, in state `Normal`. -/
def writeGlyph (w : FrameBufferWriter) (cw : ℕ) (byte : UInt8) : Checked FrameBufferWriter := do
  let right ← add w.xPos cw
  let w ← (if right > w.info.width then do
      let w ← eraseCursor w
      newLine w
    else .ok w)
  let w ← drawChar w w.xPos w.yPos byte
  let x ← add w.xPos cw
  drawCursor { w with cursorShown := false, xPos := x }

/-- `0x08`, in state `Normal`. -/
def backspace (w : FrameBufferWriter) (cw : ℕ) : Checked FrameBufferWriter := do
  let w ← eraseCursor w
  let w ← (if w.xPos ≥ cw then do
      let x ← sub w.xPos cw
      .ok { w with xPos := x }
    else .ok w)
  drawCursor w

def writeByte (w : FrameBufferWriter) (byte : UInt8) : Checked FrameBufferWriter :=
  match w.escapeState with
  | .normal => do
    let cw ← cellWidth w
    if byte = 0x1b then .ok { w with escapeState := .sawEsc }
    else if byte = 0x0a then do
      let w ← eraseCursor w
      let w ← newLine w
      drawCursor w
    else if byte = 0x08 then backspace w cw
    else writeGlyph w cw byte
  | .sawEsc =>
    .ok { w with escapeState := if byte = 0x5b then .sawBracket else .normal }
  | .sawBracket =>
    if isParam byte then do
      let buf ← setCsi w 0 byte
      .ok { w with escapeState := .inCsi, csiBuf := buf, csiPos := 1 }
    else .ok { w with escapeState := .normal }
  | .inCsi =>
    if isParam byte = true ∧ w.csiPos < 8 then do
      let buf ← setCsi w w.csiPos byte
      let pos ← add w.csiPos 1
      .ok { w with csiBuf := buf, csiPos := pos }
    else if byte = 0x6d then do
      let w ← applySgr w
      .ok { w with escapeState := .normal }
    else .ok { w with escapeState := .normal }

/-- `write_string(s)`, `s` by its bytes. -/
def writeString (w : FrameBufferWriter) (s : List UInt8) : Checked FrameBufferWriter :=
  s.foldlM (fun w byte => writeByte w (sent byte)) w

/-! ## The rest of the interface -/

def clearScreen (w : FrameBufferWriter) : Checked FrameBufferWriter :=
  drawCursor { w with
    buffer := fun i => if i < w.bufferLen then 0 else w.buffer i
    xPos := 0
    yPos := 0
    cursorShown := false }

def scaleUp (w : FrameBufferWriter) : Checked (Bool × FrameBufferWriter) :=
  if w.scaleFactor ≥ maxScale then .ok (false, w)
  else do
    let s ← fit 8 (w.scaleFactor + 1)
    let w ← clearScreen { w with scaleFactor := s }
    .ok (true, w)

def scaleDown (w : FrameBufferWriter) : Checked (Bool × FrameBufferWriter) :=
  if w.scaleFactor ≤ minScale then .ok (false, w)
  else do
    let s ← sub w.scaleFactor 1
    let w ← clearScreen { w with scaleFactor := s }
    .ok (true, w)

/-! ## Calls -/

/-- A call of the interface. -/
inductive Call
  | writeByte (byte : UInt8)
  | writeString (s : List UInt8)
  | clearScreen
  | scaleUp
  | scaleDown

def exec (w : FrameBufferWriter) : Call → Checked FrameBufferWriter
  | .writeByte byte => writeByte w byte
  | .writeString s => writeString w s
  | .clearScreen => clearScreen w
  | .scaleUp => do
    let r ← scaleUp w
    .ok r.2
  | .scaleDown => do
    let r ← scaleDown w
    .ok r.2

end YontiOs.Framebuffer.Machine
