import Mathlib

/-!
# Machinery/Grid — rows and columns by one number

Row `r` and column `c` of a grid with `n` columns have the number `r * n + c`.  Division and
remainder give them back.
-/

namespace YontiOs.Grid

variable {m n r r' c c' k : ℕ}

theorem div (hc : c < n) : (r * n + c) / n = r := by
  rw [Nat.mul_comm, Nat.mul_add_div (Nat.zero_lt_of_lt hc), Nat.div_eq_of_lt hc, Nat.add_zero]

theorem mod (hc : c < n) : (r * n + c) % n = c := Nat.mul_add_mod_of_lt hc

theorem div_mul_add_mod (k n : ℕ) : k / n * n + k % n = k := by
  rw [Nat.mul_comm, Nat.div_add_mod]

/-- Rows are apart. -/
theorem add_le (hr : r < m) (hc : c ≤ n) : r * n + c ≤ m * n := by
  have := Nat.mul_le_mul_right n (Nat.succ_le_of_lt hr)
  rw [Nat.succ_mul] at this
  omega

theorem lt (hr : r < m) (hc : c < n) : r * n + c < m * n := by
  have := Nat.mul_le_mul_right n (Nat.succ_le_of_lt hr)
  rw [Nat.succ_mul] at this
  omega

/-- Cells are numbered apart. -/
theorem inj (hc : c < n) (hc' : c' < n) : r * n + c = r' * n + c' ↔ r = r' ∧ c = c' := by
  refine ⟨fun h => ⟨?_, ?_⟩, fun h => by rw [h.1, h.2]⟩
  · rw [← div (r := r) hc, h, div hc']
  · rw [← mod (r := r) hc, h, mod hc']

/-- The numbers below `m * n` are those of the cells. -/
theorem exists_iff : (∃ r < m, ∃ c < n, k = r * n + c) ↔ k < m * n := by
  constructor
  · rintro ⟨r, hr, c, hc, rfl⟩
    exact lt hr hc
  · intro hk
    have hn : 0 < n := Nat.pos_of_ne_zero fun hn => by simp [hn] at hk
    exact ⟨k / n, (Nat.div_lt_iff_lt_mul hn).mpr hk, k % n, Nat.mod_lt k hn,
      (div_mul_add_mod k n).symm⟩

end YontiOs.Grid
