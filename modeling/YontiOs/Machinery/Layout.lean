import Mathlib

/-!
# Machinery/Layout — `core::alloc::Layout`

A layout is a size and a power-of-two alignment such that the size, rounded up to the alignment, is
at most `isize::MAX`.  The bound is a field, so an invalid layout cannot be built: `fromSizeAlign`
checks it, `alignTo` may fail, and `padToAlign` keeps it.
-/

namespace YontiOs

/-- A valid layout. -/
structure Layout where
  size : ℕ
  align : ℕ
  pow2 : align.isPowerOfTwo
  fits : size + align ≤ 2 ^ 63
deriving DecidableEq, Repr

namespace Layout

variable {l l' : Layout} {size align : ℕ}

/-- `Layout::from_size_align`. -/
def fromSizeAlign (size align : ℕ) : Option Layout :=
  if h : align.isPowerOfTwo ∧ size + align ≤ 2 ^ 63 then some ⟨size, align, h.1, h.2⟩ else none

theorem fromSizeAlign_isSome_iff :
    (fromSizeAlign size align).isSome ↔ align.isPowerOfTwo ∧ size + align ≤ 2 ^ 63 := by
  rw [fromSizeAlign]
  split_ifs with h
  · exact iff_of_true rfl h
  · exact iff_of_false Bool.false_ne_true h

theorem fromSizeAlign_eq_some (h : fromSizeAlign size align = some l) :
    l.size = size ∧ l.align = align := by
  rw [fromSizeAlign] at h
  split_ifs at h
  obtain rfl := Option.some.inj h
  exact ⟨rfl, rfl⟩

/-- So many bytes, aligned for a word. -/
def ofBytes (size : ℕ) (h : size + 8 ≤ 2 ^ 63) : Layout := ⟨size, 8, ⟨3, rfl⟩, h⟩

/-- `align_to`: at least the given alignment. -/
def alignTo (l : Layout) (align : ℕ) : Option Layout := fromSizeAlign l.size (max l.align align)

theorem align_pos (l : Layout) : 0 < l.align := by
  obtain ⟨k, hk⟩ := l.pow2
  rw [hk]
  exact Nat.two_pow_pos k

/-- The alignment divides the largest size it allows. -/
theorem align_dvd (l : Layout) : l.align ∣ 2 ^ 63 - l.align := by
  have hfits := l.fits
  obtain ⟨k, hk⟩ := l.pow2
  have hk63 : k ≤ 63 := by
    rw [← Nat.pow_le_pow_iff_right (show 1 < 2 by decide), ← hk]
    omega
  exact Nat.dvd_sub (hk ▸ Nat.pow_dvd_pow 2 hk63) dvd_rfl

/-- `pad_to_align`: the size rounded up to the alignment. -/
def padToAlign (l : Layout) : Layout :=
  ⟨(l.size + l.align - 1) / l.align * l.align, l.align, l.pow2, by
    obtain ⟨c, hc⟩ := l.align_dvd
    have hfits := l.fits
    have hpos := l.align_pos
    have hle : (l.size + l.align - 1) / l.align ≤ c := by
      rw [← Nat.lt_succ_iff, Nat.div_lt_iff_lt_mul hpos, Nat.succ_mul, Nat.mul_comm c]
      omega
    have := Nat.mul_le_mul_right l.align hle
    rw [Nat.mul_comm c] at this
    omega⟩

theorem dvd_padToAlign (l : Layout) : l.align ∣ l.padToAlign.size := Nat.dvd_mul_left _ _

theorem le_padToAlign (l : Layout) : l.size ≤ l.padToAlign.size := by
  have hpos := l.align_pos
  have hmod := Nat.mod_lt (l.size + l.align - 1) hpos
  have hdiv := Nat.div_add_mod' (l.size + l.align - 1) l.align
  change l.size ≤ (l.size + l.align - 1) / l.align * l.align
  omega

end Layout

end YontiOs
