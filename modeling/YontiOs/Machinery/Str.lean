import Mathlib

/-!
# Machinery/Str — string slices as lists of characters

The `str` methods the kernel's path code calls.  A separator is one character, so slicing at its
position never cuts a character and positions may count characters instead of bytes.

`pieces c s` — the nonempty parts between separators — is what splitting, trimming and cutting at
the last separator agree on: `pieces_trimMatches`, `pieces_append_cons` and
`pieces_of_notMem` compute it.
-/

namespace YontiOs.Str

variable {α : Type*} [DecidableEq α] {c : α}

/-- `str::trim_matches`: drop the separator from both ends. -/
def trimMatches (c : α) (s : List α) : List α := (s.dropWhile (· = c)).rdropWhile (· = c)

/-- `str::rfind`: the position of the last separator. -/
def rfind (c : α) : List α → Option ℕ
  | [] => none
  | x :: s =>
    match rfind c s with
    | some i => some (i + 1)
    | none => if x = c then some 0 else none

theorem rfind_eq_none : ∀ {s : List α}, c ∉ s → rfind c s = none
  | [], _ => rfl
  | x :: s, h => by
      have hx : x ≠ c := fun hx => h (hx ▸ List.mem_cons_self)
      rw [rfind, rfind_eq_none fun hs => h (List.mem_cons_of_mem _ hs)]
      simp [hx]

theorem rfind_append_cons {b : List α} (hb : c ∉ b) : ∀ a : List α,
    rfind c (a ++ c :: b) = some a.length
  | [] => by simp [rfind, rfind_eq_none hb]
  | x :: a => by
      rw [List.cons_append, rfind, rfind_append_cons hb a]
      rfl

/-- A list holding the separator is cut at its last occurrence. -/
theorem exists_last_cut : ∀ {s : List α}, c ∈ s → ∃ a b, s = a ++ c :: b ∧ c ∉ b
  | [], h => absurd h (by simp)
  | x :: s, h => by
      by_cases hs : c ∈ s
      · obtain ⟨a, b, rfl, hb⟩ := exists_last_cut hs
        exact ⟨x :: a, b, rfl, hb⟩
      · obtain rfl : c = x := (List.mem_cons.mp h).resolve_right hs
        exact ⟨[], s, rfl, hs⟩

/-! ## The pieces between separators -/

/-- The nonempty parts of `s` between separators. -/
def pieces (c : α) (s : List α) : List (List α) := (s.splitOn c).filter (· ≠ [])

theorem pieces_append_cons (a b : List α) : pieces c (a ++ c :: b) = pieces c a ++ pieces c b := by
  rw [pieces, List.splitOn_append_cons_self, List.filter_append]
  rfl

@[simp] theorem pieces_nil : pieces c ([] : List α) = [] := by simp [pieces]

theorem pieces_cons_self (s : List α) : pieces c (c :: s) = pieces c s := by
  have h := pieces_append_cons (c := c) [] s
  rwa [pieces_nil, List.nil_append, List.nil_append] at h

theorem pieces_concat_self (s : List α) : pieces c (s ++ [c]) = pieces c s := by
  rw [pieces_append_cons, pieces_nil, List.append_nil]

theorem pieces_of_notMem {s : List α} (h : c ∉ s) (hne : s ≠ []) : pieces c s = [s] := by
  have hs : s.splitOn c = [s] := by
    rw [List.splitOn, List.splitOnP_eq_singleton]
    intro x hx
    simpa using fun hxc : x = c => h (hxc ▸ hx)
  rw [pieces, hs]
  simp [hne]

/-- **Trimming does not change the pieces.** -/
theorem pieces_trimMatches (s : List α) : pieces c (trimMatches c s) = pieces c s := by
  have hl : ∀ s : List α, pieces c (s.dropWhile (· = c)) = pieces c s := by
    intro s
    induction s with
    | nil => rfl
    | cons x s ih =>
      by_cases hx : x = c
      · subst hx
        rw [List.dropWhile_cons_of_pos (by simp), ih, pieces_cons_self]
      · rw [List.dropWhile_cons_of_neg (by simpa using hx)]
  have hr : ∀ s : List α, pieces c (s.rdropWhile (· = c)) = pieces c s := by
    intro s
    induction s using List.reverseRecOn with
    | nil => rfl
    | append_singleton s x ih =>
      by_cases hx : x = c
      · subst hx
        rw [List.rdropWhile_concat_pos _ _ _ (by simp), ih, pieces_concat_self]
      · rw [List.rdropWhile_concat_neg _ _ _ (by simpa using hx)]
  rw [trimMatches, hr, hl]

theorem ne_nil_of_mem_pieces {s p : List α} (h : p ∈ pieces c s) : p ≠ [] := by
  simpa using (List.mem_filter.mp h).2

theorem notMem_of_mem_pieces {s p : List α} (h : p ∈ pieces c s) : c ∉ p := by
  induction hn : s.length using Nat.strong_induction_on generalizing s with
  | _ n ih =>
    by_cases hc : c ∈ s
    · obtain ⟨a, b, rfl, -⟩ := exists_last_cut hc
      rw [pieces_append_cons] at h
      rcases List.mem_append.mp h with h | h
      · exact ih a.length (by rw [← hn, List.length_append, List.length_cons]; omega) h rfl
      · exact ih b.length (by rw [← hn, List.length_append, List.length_cons]; omega) h rfl
    · rcases eq_or_ne s [] with rfl | hne
      · simp at h
      · rw [pieces_of_notMem hc hne, List.mem_singleton] at h
        exact h ▸ hc

/-- Only a list of separators has no pieces. -/
theorem pieces_eq_nil_iff {s : List α} : pieces c s = [] ↔ ∀ x ∈ s, x = c := by
  constructor
  · induction hn : s.length using Nat.strong_induction_on generalizing s with
    | _ n ih =>
      intro h x hx
      by_cases hc : c ∈ s
      · obtain ⟨a, b, rfl, -⟩ := exists_last_cut hc
        rw [pieces_append_cons, List.append_eq_nil_iff] at h
        rw [List.length_append, List.length_cons] at hn
        rcases List.mem_append.mp hx with hx | hx
        · exact ih a.length (by omega) rfl h.1 x hx
        · rcases List.mem_cons.mp hx with rfl | hx
          · rfl
          · exact ih b.length (by omega) rfl h.2 x hx
      · rw [pieces_of_notMem hc (List.ne_nil_of_mem hx)] at h
        exact absurd h (by simp)
  · intro h
    induction s with
    | nil => exact pieces_nil
    | cons x s ih =>
      obtain rfl : x = c := h x List.mem_cons_self
      rw [pieces_cons_self, ih fun y hy => h y (List.mem_cons_of_mem _ hy)]

/-- A trimmed list does not end in the separator. -/
theorem getLast_trimMatches_ne {s : List α} (h : trimMatches c s ≠ []) :
    (trimMatches c s).getLast h ≠ c := by
  have hlast := List.rdropWhile_last_not (· = c) (s.dropWhile (· = c)) h
  exact fun hc => hlast (decide_eq_true hc)

/-- **Cutting a trimmed list at its last separator cuts off the last piece.** -/
theorem pieces_trim_cut {s a b : List α} (h : trimMatches c s = a ++ c :: b) (hb : c ∉ b) :
    b ≠ [] ∧ pieces c s = pieces c a ++ [b] := by
  have hbne : b ≠ [] := by
    rintro rfl
    have hne : trimMatches c s ≠ [] := by simp [h]
    exact getLast_trimMatches_ne hne (by simp [h])
  refine ⟨hbne, ?_⟩
  rw [← pieces_trimMatches, h, pieces_append_cons, pieces_of_notMem hb hbne]

end YontiOs.Str
