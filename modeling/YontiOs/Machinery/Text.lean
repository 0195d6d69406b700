import Mathlib

/-!
# Machinery/Text — bytes read as text, words and numbers

`str` methods on text that comes as bytes: `fromUtf8` reads it, `trim` and `splitWhitespace` cut it
into words, and `parseUsize` reads a number.  Bytes of ASCII characters are read back as these
characters (`fromUtf8_ascii`).
-/

namespace YontiOs.Text

/-- The bytes of a text. -/
def bytes (s : List Char) : List UInt8 := s.flatMap String.utf8EncodeChar

/-- `core::str::from_utf8`. -/
def fromUtf8 (bs : List UInt8) : Option (List Char) := bs.toByteArray.utf8Decode?.map Array.toList

theorem fromUtf8_bytes (s : List Char) : fromUtf8 (bytes s) = some s := by
  rw [fromUtf8, show (bytes s).toByteArray = s.utf8Encode from rfl, List.utf8Decode?_utf8Encode]
  rfl

theorem bytes_ascii {s : List Char} (h : ∀ c ∈ s, c.toNat < 128) :
    bytes s = s.map Char.toUInt8 := by
  have hone : ∀ c ∈ s, String.utf8EncodeChar c = [c.toUInt8] := fun c hc =>
    String.utf8EncodeChar_eq_singleton (Char.utf8Size_eq_one_iff.mpr
      (UInt32.le_iff_toNat_le.mpr (Nat.le_of_lt_succ (h c hc))))
  calc bytes s = s.flatMap fun c => [c.toUInt8] := List.flatMap_congr hone
    _ = s.map Char.toUInt8 := List.map_eq_flatMap.symm

/-- **ASCII characters, one byte each, are read back.** -/
theorem fromUtf8_ascii {s : List Char} (h : ∀ c ∈ s, c.toNat < 128) :
    fromUtf8 (s.map Char.toUInt8) = some s := by
  rw [← bytes_ascii h, fromUtf8_bytes]

/-- `char::is_whitespace`. -/
def isWhitespace (c : Char) : Bool :=
  let n := c.toNat
  9 ≤ n && n ≤ 13 || n == 0x20 || n == 0x85 || n == 0xa0 || n == 0x1680 ||
    0x2000 ≤ n && n ≤ 0x200a || n == 0x2028 || n == 0x2029 || n == 0x202f || n == 0x205f ||
    n == 0x3000

/-- `str::trim`. -/
def trim (s : List Char) : List Char := (s.dropWhile isWhitespace).rdropWhile isWhitespace

/-- `str::split_whitespace`. -/
def splitWhitespace (s : List Char) : List String :=
  ((s.splitOnP isWhitespace).filter (· ≠ [])).map String.ofList

/-- The value of a decimal digit. -/
def digit (c : Char) : Option ℕ := if '0' ≤ c ∧ c ≤ '9' then some (c.toNat - 48) else none

/-- Decimal digits as a `usize`, which must not overflow. -/
def parseDigits (s : List Char) : Option ℕ :=
  s.foldlM (fun n c => do
    let n := n * 10 + (← digit c)
    if n < 2 ^ 64 then some n else none) 0

/-- `str::parse::<usize>`: digits, after one `+` at most. -/
def parseUsize (s : String) : Option ℕ :=
  match s.toList with
  | [] | ['+'] | ['-'] => none
  | '+' :: s => parseDigits s
  | s => parseDigits s

end YontiOs.Text
