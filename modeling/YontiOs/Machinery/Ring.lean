import Mathlib

/-!
# Machinery/Ring — values written around a ring

Slots `0` to `c - 1` take a stream of values, the `i`-th in slot `i % c`.  Whatever the length of
the stream, the last `c` of its values are in their slots (`Ring`), and reading the last slots in
order gives the end of the stream as long as no slot is read twice (`Ring.map_range'`).
-/

namespace YontiOs

variable {α : Type*} {c k : ℕ} {f : ℕ → α} {l : List α} {a : α}

/-- The last `c` values of `l` are in their slots. -/
def Ring (c : ℕ) (f : ℕ → α) (l : List α) : Prop :=
  ∀ i (hi : i < l.length), l.length ≤ i + c → f (i % c) = l[i]

namespace Ring

theorem nil : Ring c f [] := fun _ hi => absurd hi (Nat.not_lt_zero _)

/-- **One more value** overwrites the one that is now too old. -/
theorem push (h : Ring c f l) : Ring c (Function.update f (l.length % c) a) (l ++ [a]) := by
  intro i hi hlen
  rw [List.length_append, List.length_singleton] at hi hlen
  rcases (Nat.lt_succ_iff.mp hi).eq_or_lt with rfl | hlt
  · rw [Function.update_self, List.getElem_concat_length rfl]
  · -- fewer than `c` steps behind is another slot
    have hslot : i % c ≠ l.length % c := by
      intro heq
      have hdvd : c ∣ l.length - i := (Nat.modEq_iff_dvd' hlt.le).mp heq
      have := Nat.le_of_dvd (by omega) hdvd
      omega
    rw [Function.update_of_ne hslot, List.getElem_append_left hlt, h i hlt (by omega)]

/-- **The last slots, read in order**, are the end of the stream. -/
theorem map_range' (h : Ring c f l) (hc : k ≤ c) (hl : k ≤ l.length) :
    (List.range' (l.length - k) k).map (fun i => f (i % c)) = l.drop (l.length - k) := by
  refine List.ext_getElem (by simp; omega) fun j hj _ => ?_
  rw [List.length_map, List.length_range'] at hj
  rw [List.getElem_map, List.getElem_range', List.getElem_drop, one_mul,
    h (l.length - k + j) (by omega) (by omega)]

end Ring

end YontiOs
