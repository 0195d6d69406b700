import Mathlib

/-!
# Machinery/AlignedRange — aligned ranges of power-of-two length

The range `(i, k)` is the `2 ^ k` numbers from `i` on, aligned when `2 ^ k ∣ i`.  Aligned ranges
form a binary tree: two of them are nested or disjoint (`nested_or_disjoint`), and each below the
root has a buddy, its index with one bit flipped, the two together being the parent (`buddy_cases`).
-/

namespace YontiOs.AlignedRange

variable {i j k l x : ℕ}

/-- Two ranges do not meet. -/
def Off (b c : ℕ × ℕ) : Prop := b.1 + 2 ^ b.2 ≤ c.1 ∨ c.1 + 2 ^ c.2 ≤ b.1

theorem Off.symm {b c : ℕ × ℕ} (h : Off b c) : Off c b := Or.symm h

/-- The range `b` has the number `x`. -/
def Has (b : ℕ × ℕ) (x : ℕ) : Prop := b.1 ≤ x ∧ x < b.1 + 2 ^ b.2

instance (b : ℕ × ℕ) (x : ℕ) : Decidable (Has b x) := inferInstanceAs (Decidable (_ ∧ _))

theorem has_self (b : ℕ × ℕ) : Has b b.1 :=
  ⟨le_rfl, Nat.lt_add_of_pos_right (Nat.two_pow_pos b.2)⟩

/-- Ranges that do not meet have no number in common. -/
theorem Off.not_has {b c : ℕ × ℕ} (h : Off b c) (hb : Has b x) : ¬ Has c x := by
  rintro ⟨h1, h2⟩
  obtain ⟨h3, h4⟩ := hb
  rcases h with h | h <;> omega

/-- Ranges with no number in common do not meet. -/
theorem off_of_not_has {b c : ℕ × ℕ} (h : ∀ x, Has b x → ¬ Has c x) : Off b c := by
  have hb := Nat.two_pow_pos b.2
  have hc := Nat.two_pow_pos c.2
  by_contra hno
  simp only [Off, not_or, not_le] at hno
  rcases le_total b.1 c.1 with hle | hle
  · exact h c.1 ⟨hle, hno.1⟩ (has_self c)
  · exact h b.1 (has_self b) ⟨hle, hno.2⟩

/-- **Aligned ranges are nested or disjoint.** -/
theorem nested_or_disjoint (hi : 2 ^ k ∣ i) (hj : 2 ^ l ∣ j) (hkl : k ≤ l) :
    (j ≤ i ∧ i + 2 ^ k ≤ j + 2 ^ l) ∨ i + 2 ^ k ≤ j ∨ j + 2 ^ l ≤ i := by
  obtain ⟨d, rfl⟩ := Nat.exists_eq_add_of_le hkl
  obtain ⟨a, rfl⟩ := hi
  obtain ⟨b, rfl⟩ := hj
  -- everything is a multiple of `2 ^ k`
  have hj : 2 ^ (k + d) * b = 2 ^ k * (2 ^ d * b) := by rw [pow_add, mul_assoc]
  have htop : 2 ^ k * (2 ^ d * b) + 2 ^ (k + d) = 2 ^ k * (2 ^ d * b + 2 ^ d) := by
    rw [pow_add, mul_add]
  have hstep : 2 ^ k * a + 2 ^ k = 2 ^ k * (a + 1) := by rw [mul_add, mul_one]
  rw [hj, htop, hstep]
  rcases lt_or_ge a (2 ^ d * b) with h | h
  · exact .inr (.inl (Nat.mul_le_mul_left _ h))
  · rcases lt_or_ge a (2 ^ d * b + 2 ^ d) with h' | h'
    · exact .inl ⟨Nat.mul_le_mul_left _ h, Nat.mul_le_mul_left _ h'⟩
    · exact .inr (.inr (Nat.mul_le_mul_left _ h'))

/-- The other half of the parent. -/
def buddy (i k : ℕ) : ℕ := i ^^^ 2 ^ k

/-- **A range and its buddy are the halves of their parent.** -/
theorem buddy_cases (hi : 2 ^ k ∣ i) :
    (2 ^ (k + 1) ∣ i ∧ buddy i k = i + 2 ^ k) ∨
      (2 ^ (k + 1) ∣ i - 2 ^ k ∧ 2 ^ k ≤ i ∧ buddy i k = i - 2 ^ k) := by
  obtain ⟨q, rfl⟩ := hi
  have hxor : buddy (2 ^ k * q) k = 2 ^ k * (q ^^^ 1) := by
    rw [buddy, mul_comm, ← Nat.shiftLeft_eq, show 2 ^ k = 1 <<< k by rw [Nat.one_shiftLeft],
      ← Nat.shiftLeft_xor_distrib, Nat.shiftLeft_eq, Nat.one_shiftLeft, mul_comm]
  rw [hxor, pow_succ]
  rcases Nat.even_or_odd' q with ⟨c, rfl | rfl⟩
  · refine .inl ⟨⟨c, by ring⟩, ?_⟩
    rw [Nat.xor_one_of_even (even_two_mul c)]
    ring
  · refine .inr ⟨⟨c, ?_⟩, ?_, ?_⟩
    · rw [mul_add, mul_one, Nat.add_sub_cancel]
      ring
    · exact Nat.le_mul_of_pos_right _ (by omega)
    · rw [Nat.xor_one_of_odd (odd_two_mul_add_one c), Nat.add_sub_cancel, mul_add, mul_one,
        Nat.add_sub_cancel]

/-- The lower half of a parent has its buddy above it. -/
theorem buddy_of_dvd (hi : 2 ^ (k + 1) ∣ i) : buddy i k = i + 2 ^ k := by
  have hpos := Nat.two_pow_pos k
  rcases buddy_cases ((Nat.pow_dvd_pow 2 (Nat.le_succ k)).trans hi) with ⟨-, h⟩ | ⟨h1, h2, -⟩
  · exact h
  · have hdvd : 2 ^ (k + 1) ∣ 2 ^ k := by
      have := Nat.dvd_sub hi h1
      rwa [Nat.sub_sub_self h2] at this
    have := Nat.le_of_dvd hpos hdvd
    rw [pow_succ] at this
    omega

theorem buddy_buddy : buddy (buddy i k) k = i := Nat.xor_xor_cancel_right i (2 ^ k)

/-- The parent of a range. -/
def parent (i k : ℕ) : ℕ := min i (buddy i k)

theorem parent_buddy : parent (buddy i k) k = parent i k := by
  rw [parent, buddy_buddy, min_comm, parent]

theorem parent_cases (hi : 2 ^ k ∣ i) : 2 ^ (k + 1) ∣ parent i k ∧ 2 ^ k ∣ buddy i k ∧
    ((i = parent i k ∧ buddy i k = parent i k + 2 ^ k) ∨
      (i = parent i k + 2 ^ k ∧ buddy i k = parent i k)) := by
  have hpos := Nat.two_pow_pos k
  have hdvd : 2 ^ k ∣ 2 ^ (k + 1) := Nat.pow_dvd_pow 2 (Nat.le_succ k)
  rcases buddy_cases hi with ⟨h1, h2⟩ | ⟨h1, h2, h3⟩
  · have hp : parent i k = i := by rw [parent, h2]; omega
    rw [hp, h2]
    exact ⟨h1, (Nat.dvd_add_right hi).mpr dvd_rfl, .inl ⟨rfl, rfl⟩⟩
  · have hp : parent i k = i - 2 ^ k := by rw [parent, h3]; omega
    rw [hp, h3]
    exact ⟨h1, hdvd.trans h1, .inr ⟨by omega, rfl⟩⟩

/-- A range above another contains its parent. -/
theorem parent_nested (hi : 2 ^ k ∣ i) (hj : 2 ^ l ∣ j) (hkl : k < l) (h1 : j ≤ i)
    (h2 : i + 2 ^ k ≤ j + 2 ^ l) : j ≤ parent i k ∧ parent i k + 2 ^ (k + 1) ≤ j + 2 ^ l := by
  obtain ⟨hp, -, hcase⟩ := parent_cases hi
  have hpos := Nat.two_pow_pos k
  have hsucc : 2 ^ (k + 1) = 2 ^ k + 2 ^ k := by rw [pow_succ]; omega
  rcases nested_or_disjoint hp hj hkl with h | h | h
  · exact h
  · omega
  · omega

end YontiOs.AlignedRange
