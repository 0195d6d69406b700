import YontiOs.Framebuffer.Writer

/-!
# Shell/Console — the line editor of the shell

`Shell` of `shell.rs` with the screen that `print!` writes to.  `handle_key` edits the buffer and
echoes what it did as bytes, without asking where the screen's cursor is.  What a finished line does
is a parameter (`execute`).
-/

namespace YontiOs

open Framebuffer

/-- The keys without a character; the shell looks at one of them. -/
inductive KeyCode
  | backspace
  | other
  deriving DecidableEq, Repr

inductive DecodedKey
  | unicode (c : Char)
  | rawKey (code : KeyCode)
  deriving DecidableEq, Repr

/-- `Shell`: the buffer of the line and how much of it is used. -/
structure Shell where
  buf : Vector UInt8 256
  pos : ℕ
  pos_le : pos ≤ 256

namespace Shell

def new : Shell := ⟨Vector.replicate 256 0, 0, Nat.zero_le _⟩

/-- `buf[..pos]`. -/
def line (sh : Shell) : List UInt8 := sh.buf.toList.take sh.pos

end Shell

/-- `char::is_ascii_graphic`. -/
def isAsciiGraphic (c : Char) : Bool := '!' ≤ c && c ≤ '~'

/-- The shell and the screen. -/
structure Console where
  shell : Shell
  screen : FrameBufferWriter

namespace Console

/-- `print!`, the text by its bytes. -/
def print (s : Console) (text : List UInt8) : Option Console := do
  let screen ← s.screen.writeString text
  some { s with screen := screen }

/-- `ESC [32m$ ESC [0m`. -/
def printPrompt (s : Console) : Option Console :=
  s.print [0x1b, 0x5b, 0x33, 0x32, 0x6d, 0x24, 0x20, 0x1b, 0x5b, 0x30, 0x6d]

def push (s : Console) (c : Char) : Option Console :=
  if h : s.shell.pos < 256 then
    -- the character is ASCII: one byte in the buffer and on the screen
    { s with
      shell := ⟨s.shell.buf.set s.shell.pos c.toUInt8, s.shell.pos + 1, h⟩ }.print [c.toUInt8]
  else some s

def backspace (s : Console) : Option Console :=
  if s.shell.pos > 0 then
    { s with
      shell := ⟨s.shell.buf, s.shell.pos - 1, (Nat.sub_le _ _).trans s.shell.pos_le⟩ }.print
        [0x08, 0x20, 0x08]
  else some s

def handleKey (execute : Console → Option Console) (s : Console) (key : DecodedKey) :
    Option Console :=
  match key with
  | .unicode c =>
    if c = '\n' then do
      let s ← s.print [0x0a]
      let s ← execute s
      s.printPrompt
    else if c = '\x08' then s.backspace
    else if isAsciiGraphic c || c == ' ' then s.push c
    else some s
  | .rawKey .backspace => s.backspace
  | .rawKey _ => some s

def handleKeys (execute : Console → Option Console) (s : Console) (keys : List DecodedKey) :
    Option Console :=
  keys.foldlM (handleKey execute) s

end Console

namespace DecodedKey

def isBackspace : DecodedKey → Bool
  | unicode c => c == '\x08'
  | rawKey .backspace => true
  | rawKey _ => false

def isPrintable : DecodedKey → Bool
  | unicode c => isAsciiGraphic c || c == ' '
  | rawKey _ => false

theorem not_isBackspace {key : DecodedKey} (h : key.isPrintable = true) :
    ¬ key.isBackspace = true := by
  cases key with
  | rawKey code => cases h
  | unicode c =>
    intro hc
    obtain rfl : c = '\x08' := beq_iff_eq.mp hc
    exact absurd h (by decide)

end DecodedKey

namespace Console

variable {execute : Console → Option Console} {s : Console} {key : DecodedKey} {c : Char}

/-- A printable character is ASCII, and not a control character. -/
theorem printable_range (h : (isAsciiGraphic c || c == ' ') = true) :
    0x20 ≤ c.toNat ∧ c.toNat ≤ 0x7e := by
  simp only [isAsciiGraphic, Bool.or_eq_true, Bool.and_eq_true, decide_eq_true_eq, beq_iff_eq] at h
  rcases h with h | rfl
  · have h1 : (0x21 : ℕ) ≤ c.toNat := h.1
    have h2 : c.toNat ≤ 0x7e := h.2
    omega
  · decide

/-- So is its byte. -/
theorem toUInt8_range (h : (isAsciiGraphic c || c == ' ') = true) :
    0x20 ≤ c.toUInt8 ∧ c.toUInt8 ≤ 0x7e := by
  have hrange := printable_range h
  have hmod : c.toUInt8.toNat = c.toNat := by
    rw [Char.toUInt8, UInt32.toNat_toUInt8]
    exact Nat.mod_eq_of_lt (by change c.toNat < _; omega)
  rw [UInt8.le_iff_toNat_le, UInt8.le_iff_toNat_le, hmod]
  exact hrange

theorem handleKey_backspace (h : key.isBackspace = true) :
    handleKey execute s key = s.backspace := by
  cases key with
  | unicode c =>
    obtain rfl : c = '\x08' := beq_iff_eq.mp h
    rfl
  | rawKey code =>
    cases code with
    | backspace => rfl
    | other => cases h

theorem handleKey_push (hc : (isAsciiGraphic c || c == ' ') = true) :
    handleKey execute s (.unicode c) = s.push c := by
  rw [handleKey, if_neg, if_neg, if_pos hc] <;> rintro rfl <;> exact absurd hc (by decide)

theorem handleKey_printable (execute : Console → Option Console) (s : Console)
    (h : key.isPrintable = true) :
    ∃ c : Char, (0x20 ≤ c.toUInt8 ∧ c.toUInt8 ≤ 0x7e) ∧ handleKey execute s key = s.push c := by
  cases key with
  | rawKey code => cases h
  | unicode c => exact ⟨c, toUInt8_range h, handleKey_push h⟩

end Console

end YontiOs
