import Mathlib

/-!
# Machinery/Word — machine words: checked arithmetic and bit sets

The kernel is built with overflow checks, so arithmetic on `usize` is partial: `none` is a panic.
`add`, `sub` and `mul` are the checked operators; their `_of` lemmas say when they return.

Bitmaps are bit vectors read through `getLsbD`.  `trailingZeros` is the first set bit, and
`and_not_mask_toNat` is the arithmetic meaning of masking the low bits off.
-/

namespace YontiOs.Word

variable {a b : ℕ}

/-! ## Checked 64-bit arithmetic -/

/-- `a + b` on `usize`. -/
def add (a b : ℕ) : Option ℕ := if a + b < 2 ^ 64 then some (a + b) else none

/-- `a - b` on an unsigned type. -/
def sub (a b : ℕ) : Option ℕ := if b ≤ a then some (a - b) else none

/-- `a * b` on `usize`. -/
def mul (a b : ℕ) : Option ℕ := if a * b < 2 ^ 64 then some (a * b) else none

/-- A result on `u8`. -/
def byte (a : ℕ) : Option UInt8 := if a < 2 ^ 8 then some (UInt8.ofNat a) else none

theorem add_of_lt (h : a + b < 2 ^ 64) : add a b = some (a + b) := if_pos h

theorem sub_of_le (h : b ≤ a) : sub a b = some (a - b) := if_pos h

theorem mul_of_lt (h : a * b < 2 ^ 64) : mul a b = some (a * b) := if_pos h

/-- A sum that is returned is the sum, and fits. -/
theorem add_eq_some {c : ℕ} (h : add a b = some c) : c = a + b ∧ a + b < 2 ^ 64 := by
  rw [add] at h
  split_ifs at h with hlt
  exact ⟨(Option.some.inj h).symm, hlt⟩

theorem sub_eq_some {c : ℕ} (h : sub a b = some c) : c = a - b ∧ b ≤ a := by
  rw [sub] at h
  split_ifs at h with hle
  exact ⟨(Option.some.inj h).symm, hle⟩

theorem mul_eq_some {c : ℕ} (h : mul a b = some c) : c = a * b ∧ a * b < 2 ^ 64 := by
  rw [mul] at h
  split_ifs at h with hlt
  exact ⟨(Option.some.inj h).symm, hlt⟩

theorem byte_eq_some {c : UInt8} (h : byte a = some c) : c.toNat = a := by
  rw [byte] at h
  split_ifs at h with hlt
  rw [← Option.some.inj h, UInt8.toNat_ofNat', Nat.mod_eq_of_lt hlt]

/-! ## Bit sets -/

variable {w : ℕ} {x : BitVec w} {i j : ℕ}

/-- `x | 1 << i`. -/
def setBit (x : BitVec w) (i : ℕ) : BitVec w := x ||| 1#w <<< i

/-- `x & !(1 << i)`. -/
def clearBit (x : BitVec w) (i : ℕ) : BitVec w := x &&& ~~~(1#w <<< i)

theorem getLsbD_one_shiftLeft (hi : i < w) : (1#w <<< i).getLsbD j = decide (j = i) := by
  rw [BitVec.getLsbD_shiftLeft, BitVec.getLsbD_one]
  by_cases hj : j = i
  · subst hj
    simp [hi, show 0 < w by omega]
  · simp only [hj, decide_false]
    rcases lt_or_gt_of_ne hj with h | h
    · simp [h]
    · simp [show j - i ≠ 0 by omega]

/-- **Setting a bit** sets that bit and no other. -/
theorem getLsbD_setBit (hi : i < w) : (setBit x i).getLsbD j = (x.getLsbD j || decide (j = i)) := by
  rw [setBit, BitVec.getLsbD_or, getLsbD_one_shiftLeft hi]

/-- **Clearing a bit** clears that bit and no other. -/
theorem getLsbD_clearBit (hi : i < w) :
    (clearBit x i).getLsbD j = (x.getLsbD j && decide (j ≠ i)) := by
  rw [clearBit, BitVec.getLsbD_and, BitVec.getLsbD_not, getLsbD_one_shiftLeft hi]
  by_cases hj : j < w
  · simp [hj]
  · simp [BitVec.getLsbD_of_ge x j (by omega)]

/-- Testing `x & (1 << i)` against zero tests the bit. -/
theorem and_one_shiftLeft_ne_zero (hi : i < w) : x &&& 1#w <<< i ≠ 0 ↔ x.getLsbD i = true := by
  rw [← not_iff_not, not_not, BitVec.eq_of_getLsbD_eq_iff]
  constructor
  · intro h
    simpa [getLsbD_one_shiftLeft hi] using h i hi
  · intro h j _
    rw [BitVec.getLsbD_and, getLsbD_one_shiftLeft hi]
    by_cases hj : j = i
    · subst hj
      simpa using h
    · simp [hj]

/-- A bit vector is nonzero when one of its bits is set. -/
theorem ne_zero_iff : x ≠ 0 ↔ ∃ i, x.getLsbD i = true := by
  constructor
  · intro h
    by_contra hno
    refine h (BitVec.eq_of_getLsbD_eq fun i _ => ?_)
    simpa using fun hi => hno ⟨i, hi⟩
  · rintro ⟨i, hi⟩ rfl
    simp at hi

/-- `x.trailing_zeros()`: the position of the lowest set bit, the width if there is none. -/
def trailingZeros (x : BitVec w) : ℕ := ((List.range w).find? x.getLsbD).getD w

/-- **The lowest set bit** of a nonzero word is set, and no lower bit is. -/
theorem trailingZeros_spec (h : x ≠ 0) : trailingZeros x < w ∧
    x.getLsbD (trailingZeros x) = true ∧ ∀ j < trailingZeros x, x.getLsbD j = false := by
  obtain ⟨i, hi⟩ := ne_zero_iff.mp h
  have hiw : i < w := BitVec.lt_of_getLsbD hi
  cases hf : (List.range w).find? x.getLsbD with
  | none => exact absurd hi (List.find?_eq_none.mp hf i (List.mem_range.mpr hiw))
  | some k =>
    have hk : trailingZeros x = k := by rw [trailingZeros, hf]; rfl
    rw [hk]
    obtain ⟨hbit, hlt, hmin⟩ := List.find?_range_eq_some.mp hf
    refine ⟨List.mem_range.mp hlt, hbit, fun j hj => ?_⟩
    simpa using hmin j hj

/-- The mask `!0 << n` keeps the bits from `n` on. -/
theorem getLsbD_and_high {n : ℕ} : (x &&& BitVec.allOnes w <<< n).getLsbD i
    = (x.getLsbD i && decide (n ≤ i)) := by
  rw [BitVec.getLsbD_and, BitVec.getLsbD_shiftLeft, BitVec.getLsbD_allOnes]
  by_cases hi : i < w
  · by_cases hn : i < n
    · simp [hn, show ¬ n ≤ i by omega]
    · simp [hn, hi, show n ≤ i by omega, show i - n < w by omega]
  · simp [BitVec.getLsbD_of_ge x i (by omega)]

/-- **Flipping the top bit** takes it away. -/
theorem xor_two_pow_log2 (h : a ≠ 0) : a ^^^ 2 ^ a.log2 = a - 2 ^ a.log2 := by
  have hle := Nat.log2_self_le h
  have hlt := Nat.lt_log2_self (n := a)
  have hrest : a - 2 ^ a.log2 < 2 ^ a.log2 := by
    rw [pow_succ] at hlt
    omega
  have hor : a = 2 ^ a.log2 ||| (a - 2 ^ a.log2) := by
    have := Nat.two_pow_add_eq_or_of_lt hrest 1
    rwa [mul_one, Nat.add_sub_cancel' hle] at this
  refine Nat.eq_of_testBit_eq fun i => ?_
  rw [Nat.testBit_xor]
  nth_rewrite 1 [hor]
  rw [Nat.testBit_or, Nat.testBit_two_pow]
  by_cases hi : a.log2 = i
  · subst hi
    simp [Nat.testBit_lt_two_pow hrest]
  · simp [hi]

/-- **Masking off the low `j` bits** rounds down to a multiple of `2 ^ j`. -/
theorem and_not_mask_toNat (hx : a < 2 ^ w) :
    (BitVec.ofNat w a &&& ~~~ BitVec.ofNat w (2 ^ j - 1)).toNat = a / 2 ^ j * 2 ^ j := by
  have hlt : a / 2 ^ j * 2 ^ j < 2 ^ w := lt_of_le_of_lt (Nat.div_mul_le_self a (2 ^ j)) hx
  suffices h : BitVec.ofNat w a &&& ~~~ BitVec.ofNat w (2 ^ j - 1)
      = BitVec.ofNat w (a / 2 ^ j * 2 ^ j) by
    rw [h, BitVec.toNat_ofNat, Nat.mod_eq_of_lt hlt]
  refine BitVec.eq_of_getLsbD_eq fun i hi => ?_
  simp only [BitVec.getLsbD_and, BitVec.getLsbD_not, BitVec.getLsbD_ofNat, hi, decide_true,
    Bool.true_and, Nat.testBit_two_pow_sub_one, Nat.testBit_mul_two_pow, Nat.testBit_div_two_pow]
  by_cases hij : i < j
  · simp [hij, show ¬ j ≤ i by omega]
  · simp [hij, show j ≤ i by omega]

end YontiOs.Word
