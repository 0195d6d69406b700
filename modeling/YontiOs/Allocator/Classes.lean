import YontiOs.Allocator.Tlsf

/-!
# Allocator/Classes — the size classes

`mapping` names a size's class by the power of two below it and by the 32nd part of that power the
size is in.  Between 32 bytes and 16 MiB no level is capped: the class `(f, k)` is then the interval
from `classStart f k` to the start of the next one (`mapping_bounds`), and classes are ordered as
sizes are (`lt_mapping_iff`).

The product inside `mapping` overflows for some sizes from `2 ^ 60` on (`mapping_isSome_iff`).
-/

namespace YontiOs.Tlsf

variable {n t f k : ℕ} {c d : ℕ × ℕ}

/-- **The class of a size**, with the one step that can overflow. -/
theorem mapping_eq (h0 : n ≠ 0) (h64 : n < 2 ^ 64) :
    mapping n = (Word.mul (n - 2 ^ n.log2) slCount).map fun scaled =>
      (min (n.log2 - minFl) (flCount - 1), min (scaled / 2 ^ n.log2) (slCount - 1)) := by
  have hlog : n.log2 < 64 := (Nat.log2_lt h0).mpr h64
  have hfl : Word.sub (64 - leadingZeros n) 1 = some n.log2 := by
    rw [leadingZeros, if_neg h0, Word.sub_of_le (by omega)]
    congr 1
    omega
  rw [mapping, hfl, Option.bind_eq_bind, Option.bind_some, Word.xor_two_pow_log2 h0,
    Option.map_eq_bind]
  simp only [Nat.shiftRight_eq_div_pow]
  rfl

theorem ne_zero_of_mapping (hm : mapping n = some c) : n ≠ 0 := by
  rintro rfl
  cases hm

/-- A class is in range, whatever the size. -/
theorem mapping_range (hm : mapping n = some (f, k)) : f < flCount ∧ k < slCount := by
  simp only [mapping, Option.bind_eq_bind, Option.bind_eq_some_iff, Option.some.injEq,
    Prod.mk.injEq] at hm
  obtain ⟨fl, -, scaled, -, rfl, rfl⟩ := hm
  simp only [flCount, slCount]
  omega

/-- `malloc` caps the first level of a class once more, which does nothing. -/
theorem min_fst_of_mapping (hm : mapping n = some (f, k)) : min f (flCount - 1) = f := by
  have := (mapping_range hm).1
  omega

/-- **Which sizes have a class**: those whose bits below the top one number less than `2 ^ 59`. -/
theorem mapping_isSome_iff (h0 : n ≠ 0) (h64 : n < 2 ^ 64) :
    (∃ f k, mapping n = some (f, k)) ↔ n - 2 ^ n.log2 < 2 ^ 59 := by
  rw [mapping_eq h0 h64, Word.mul, show slCount = 32 from rfl]
  by_cases hlt : (n - 2 ^ n.log2) * 32 < 2 ^ 64
  · rw [if_pos hlt]
    exact ⟨fun _ => by omega, fun _ => ⟨_, _, rfl⟩⟩
  · rw [if_neg hlt]
    refine ⟨?_, fun h => absurd h (by omega)⟩
    rintro ⟨_, _, h⟩
    cases h

/-- Every block size of a heap has a class. -/
theorem mapping_isSome (h0 : 0 < n) (hn : n < 2 ^ 59) : ∃ f k, mapping n = some (f, k) :=
  (mapping_isSome_iff (by omega) (by omega)).mpr ((Nat.sub_le _ _).trans_lt hn)

/-- The first level of a size's class is its logarithm, capped. -/
theorem mapping_fst (hn : n < 2 ^ 64) (hm : mapping n = some (f, k)) :
    n ≠ 0 ∧ f = min (n.log2 - minFl) (flCount - 1) := by
  have h0 := ne_zero_of_mapping hm
  rw [mapping_eq h0 hn, Option.map_eq_some_iff] at hm
  obtain ⟨scaled, -, heq⟩ := hm
  exact ⟨h0, (Prod.mk.inj heq).1.symm⟩

/-- **A block of a higher first level is larger than the request.** -/
theorem lt_of_mapping_fst_lt {f' k' : ℕ} (hn64 : n < 2 ^ 64) (hn : mapping n = some (f, k))
    (ht64 : t < 2 ^ 64) (ht : mapping t = some (f', k')) (hff : f < f') : n < t := by
  obtain ⟨hn0, rfl⟩ := mapping_fst hn64 hn
  obtain ⟨ht0, rfl⟩ := mapping_fst ht64 ht
  simp only [minFl, flCount] at hff
  calc n < 2 ^ (n.log2 + 1) := Nat.lt_log2_self
    _ ≤ 2 ^ t.log2 := Nat.pow_le_pow_right (by decide) (by omega)
    _ ≤ t := Nat.log2_self_le ht0

/-! ## Classes as intervals -/

/-- The least size of the class `(f, k)`; for `k = 32` that of the class `(f + 1, 0)`. -/
def classStart (f k : ℕ) : ℕ := (slCount + k) * 2 ^ f

/-- The six leading binary digits of a size. -/
def leadingBits (n : ℕ) : ℕ := n / 2 ^ (n.log2 - 5)

/-- **The second level of a class** is what follows the leading one of these digits. -/
theorem leadingBits_of_mapping (h32 : 32 ≤ n) (h64 : n < 2 ^ 64) (hm : mapping n = some (f, k)) :
    leadingBits n = slCount + k := by
  have h0 : n ≠ 0 := by omega
  have hlo : 5 ≤ n.log2 := (Nat.le_log2 h0).mpr h32
  have hself := Nat.log2_self_le h0
  have hself' := Nat.lt_log2_self (n := n)
  rw [mapping_eq h0 h64, Option.map_eq_some_iff] at hm
  obtain ⟨scaled, hs, heq⟩ := hm
  obtain ⟨rfl, -⟩ := Word.mul_eq_some hs
  have hk := (Prod.mk.inj heq).2
  rw [leadingBits]
  have hpow : 2 ^ n.log2 = 2 ^ (n.log2 - 5) * 32 := by
    rw [show (32 : ℕ) = 2 ^ 5 from rfl, ← pow_add, Nat.sub_add_cancel hlo]
  have hpos : 0 < 2 ^ (n.log2 - 5) := Nat.two_pow_pos _
  generalize 2 ^ (n.log2 - 5) = p at *
  rw [pow_succ, hpow] at hself'
  rw [hpow] at hself hk
  have hge : 32 ≤ n / p := (Nat.le_div_iff_mul_le hpos).mpr (by omega)
  have hlt : n / p < 64 := (Nat.div_lt_iff_lt_mul hpos).mpr (by omega)
  rw [show slCount = 32 from rfl, Nat.mul_div_mul_right _ _ (by decide), Nat.sub_mul_div] at hk
  simp only [slCount]
  omega

/-- Below 16 MiB nothing is capped: a class divides its sizes by a power of two. -/
theorem div_of_mapping (h32 : 32 ≤ n) (h24 : n < 2 ^ 24) (hm : mapping n = some (f, k)) :
    n / 2 ^ f = slCount + k := by
  obtain ⟨h0, hf⟩ := mapping_fst (by omega) hm
  have hhi : n.log2 < 24 := (Nat.log2_lt h0).mpr h24
  obtain rfl : f = n.log2 - 5 := by
    simp only [minFl, flCount] at hf
    omega
  exact leadingBits_of_mapping h32 (by omega) hm

/-- **A class is an interval of sizes.** -/
theorem mapping_bounds (h32 : 32 ≤ n) (h24 : n < 2 ^ 24) (hm : mapping n = some (f, k)) :
    classStart f k ≤ n ∧ n < classStart f (k + 1) := by
  have hdiv := div_of_mapping h32 h24 hm
  have hpos : 0 < 2 ^ f := Nat.two_pow_pos f
  refine ⟨(Nat.le_div_iff_mul_le hpos).mp hdiv.ge, (Nat.div_lt_iff_lt_mul hpos).mp ?_⟩
  omega

/-- Classes follow each other in lexicographic order. -/
theorem classStart_le (hc : c.2 < slCount) (hcd : toLex c < toLex d) :
    classStart c.1 (c.2 + 1) ≤ classStart d.1 d.2 := by
  simp only [slCount] at hc
  simp only [classStart, slCount]
  rcases Prod.Lex.toLex_lt_toLex.mp hcd with hlt | ⟨heq, hlt⟩
  · calc (32 + (c.2 + 1)) * 2 ^ c.1 ≤ 64 * 2 ^ c.1 := Nat.mul_le_mul_right _ (by omega)
      _ = 32 * 2 ^ (c.1 + 1) := by rw [pow_succ]; omega
      _ ≤ 32 * 2 ^ d.1 := Nat.mul_le_mul_left _ (Nat.pow_le_pow_right (by decide) hlt)
      _ ≤ (32 + d.2) * 2 ^ d.1 := Nat.mul_le_mul_right _ (by omega)
  · rw [heq]
    exact Nat.mul_le_mul_right _ (by omega)

/-- **A size is of a higher class when it reaches the start of the next one.** -/
theorem lt_mapping_iff (h32 : 32 ≤ t) (h24 : t < 2 ^ 24) (hc : c.2 < slCount)
    (ht : mapping t = some d) : toLex c < toLex d ↔ classStart c.1 (c.2 + 1) ≤ t := by
  obtain ⟨hlo, hhi⟩ := mapping_bounds h32 h24 ht
  constructor
  · exact fun hcd => (classStart_le hc hcd).trans hlo
  · intro hle
    by_contra hno
    rcases (not_lt.mp hno).eq_or_lt with heq | hlt
    · obtain rfl : d = c := toLex.injective heq
      omega
    · have hnext := classStart_le (mapping_range ht).2 hlt
      have hstep : classStart c.1 c.2 ≤ classStart c.1 (c.2 + 1) :=
        Nat.mul_le_mul_right _ (by omega)
      omega

end YontiOs.Tlsf
