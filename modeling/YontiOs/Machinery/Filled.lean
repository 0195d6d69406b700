import Mathlib

/-!
# Machinery/Filled — fixed arrays filled from the front

A fixed array and a count, where a value is stored at the count while there is room and dropped
afterwards.  After any values the array has the first ones, as many as fit (`Filled`).
-/

namespace YontiOs

variable {α : Type*} {n count : ℕ} {v : Vector α n} {l : List α} {a : α}

/-- The part before the element that is set, and the element. -/
theorem vector_take_set (h : count < n) :
    (v.set count a h).toList.take (count + 1) = v.toList.take count ++ [a] := by
  rw [Vector.toList_set, List.take_set, List.set_eq_take_append_cons_drop,
    if_pos (by simpa using h)]
  simp [List.take_take]

/-- The array has the first values of `l`, as many as fit. -/
structure Filled (v : Vector α n) (count : ℕ) (l : List α) : Prop where
  count_eq : count = min n l.length
  take_eq : v.toList.take count = l.take n

namespace Filled

theorem nil (v : Vector α n) : Filled v 0 [] := ⟨by simp, by simp⟩

/-- A value stored. -/
theorem push (h : Filled v count l) (hlt : count < n) :
    Filled (v.set count a hlt) (count + 1) (l ++ [a]) := by
  have hcount := h.count_eq
  have hlen : count = l.length := by omega
  refine ⟨by rw [List.length_append, List.length_singleton]; omega, ?_⟩
  rw [vector_take_set, h.take_eq, List.take_of_length_le (by omega), List.take_of_length_le]
  rw [List.length_append, List.length_singleton]
  omega

/-- A value dropped. -/
theorem drop (h : Filled v count l) (hfull : ¬ count < n) : Filled v count (l ++ [a]) := by
  have hcount := h.count_eq
  refine ⟨by rw [List.length_append, List.length_singleton]; omega, ?_⟩
  rw [h.take_eq, List.take_append_of_le_length (by omega)]

end Filled

end YontiOs
