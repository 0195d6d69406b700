import Mathlib

/-!
# Machinery/BTreeMap — ordered maps as strictly increasing association lists

The standard library's `BTreeMap` holds each key at most once, in increasing order.  A map is the
list of its entries; `get`, `insert` and `remove` are the methods of the same names.  The lookup
laws need no hypothesis; the counting laws (`insert_perm`, `perm_remove`) are permutations of the
entry list and need it to be `Ordered`.
-/

namespace YontiOs.BTreeMap

variable {κ α : Type*} [LinearOrder κ] {m : List (κ × α)} {k k' : κ} {v o : α}

/-- `BTreeMap::get`. -/
def get (k : κ) : List (κ × α) → Option α
  | [] => none
  | (k', v) :: m => if k = k' then some v else get k m

/-- `BTreeMap::insert`: the entry goes in front of the first larger key, replacing an entry with an
equal key. -/
def insert (k : κ) (v : α) : List (κ × α) → List (κ × α)
  | [] => [(k, v)]
  | (k', v') :: m =>
    if k < k' then (k, v) :: (k', v') :: m
    else if k = k' then (k, v) :: m
    else (k', v') :: insert k v m

/-- `BTreeMap::remove`, the map that is left. -/
def remove (k : κ) (m : List (κ × α)) : List (κ × α) := m.filter fun e => e.1 ≠ k

/-- Keys strictly increase along the entry list. -/
def Ordered (m : List (κ × α)) : Prop := m.Pairwise fun e e' => e.1 < e'.1

/-! ## Lookup laws -/

@[simp] theorem get_cons : get k ((k', v) :: m) = if k = k' then some v else get k m := rfl

@[simp] theorem get_nil : get k ([] : List (κ × α)) = none := rfl

/-- A key the map does not hold is not found. -/
theorem get_eq_none_iff : get k m = none ↔ ∀ e ∈ m, e.1 ≠ k := by
  induction m with
  | nil => simp
  | cons e m ih =>
    obtain ⟨k', v'⟩ := e
    rw [get_cons]
    by_cases h : k = k'
    · simp [h]
    · simp [h, ih, Ne.symm h]

@[simp] theorem get_insert_self : get k (insert k v m) = some v := by
  induction m with
  | nil => simp [insert]
  | cons e m ih =>
    obtain ⟨k', v'⟩ := e
    rw [insert]
    split_ifs with h1 h2
    · simp
    · simp
    · rw [get_cons, if_neg h2, ih]

theorem get_insert_ne (h : k' ≠ k) : get k' (insert k v m) = get k' m := by
  induction m with
  | nil => simp [insert, h]
  | cons e m ih =>
    obtain ⟨k'', v''⟩ := e
    rw [insert]
    split_ifs with h1 h2
    · rw [get_cons, if_neg h]
    · subst h2
      rw [get_cons, get_cons, if_neg h, if_neg h]
    · rw [get_cons, get_cons, ih]

@[simp] theorem get_remove_self : get k (remove k m) = none := by
  refine get_eq_none_iff.mpr fun e he => ?_
  simpa using (List.mem_filter.mp he).2

theorem get_remove_ne (h : k' ≠ k) : get k' (remove k m) = get k' m := by
  induction m with
  | nil => rfl
  | cons e m ih =>
    obtain ⟨k'', v''⟩ := e
    by_cases hk : k'' = k
    · subst hk
      have hr : remove k'' ((k'', v'') :: m) = remove k'' m := by simp [remove]
      rw [hr, ih, get_cons, if_neg h]
    · have hr : remove k ((k'', v'') :: m) = (k'', v'') :: remove k m := by simp [remove, hk]
      rw [hr, get_cons, get_cons, ih]

/-! ## Order and counting -/

theorem mem_keys_iff : k ∈ m.map Prod.fst ↔ (get k m).isSome := by
  rw [← not_iff_not, Option.not_isSome_iff_eq_none, get_eq_none_iff]
  simp only [List.mem_map, not_exists, not_and]

theorem mem_insert {e : κ × α} (h : e ∈ insert k v m) : e = (k, v) ∨ e ∈ m := by
  induction m with
  | nil => simpa [insert] using h
  | cons e' m ih =>
    obtain ⟨k', v'⟩ := e'
    rw [insert] at h
    split_ifs at h with h1 h2
    · simpa using h
    · rcases List.mem_cons.mp h with rfl | h
      · exact Or.inl rfl
      · exact Or.inr (List.mem_cons_of_mem _ h)
    · rcases List.mem_cons.mp h with rfl | h
      · exact Or.inr List.mem_cons_self
      · exact (ih h).imp_right (List.mem_cons_of_mem _)

theorem Ordered.insert (h : Ordered m) : Ordered (insert k v m) := by
  induction m with
  | nil => exact List.pairwise_singleton _ _
  | cons e m ih =>
    obtain ⟨k', v'⟩ := e
    obtain ⟨hhd, htl⟩ := List.pairwise_cons.mp h
    rw [BTreeMap.insert]
    split_ifs with h1 h2
    · refine List.pairwise_cons.mpr ⟨fun e he => ?_, h⟩
      rcases List.mem_cons.mp he with rfl | he
      · exact h1
      · exact h1.trans (hhd e he)
    · subst h2
      exact List.pairwise_cons.mpr ⟨hhd, htl⟩
    · refine List.pairwise_cons.mpr ⟨fun e he => ?_, ih htl⟩
      rcases mem_insert he with rfl | he
      · exact lt_of_le_of_ne (not_lt.mp h1) (Ne.symm h2)
      · exact hhd e he

theorem Ordered.remove (h : Ordered m) : Ordered (remove k m) := h.filter _

theorem remove_eq_self (h : get k m = none) : remove k m = m := by
  refine List.filter_eq_self.mpr fun e he => ?_
  exact decide_eq_true (get_eq_none_iff.mp h e he)

/-- **`insert` adds one entry** to what `remove` leaves. -/
theorem insert_perm (h : Ordered m) : (insert k v m).Perm ((k, v) :: remove k m) := by
  induction m with
  | nil => exact List.Perm.refl _
  | cons e m ih =>
    obtain ⟨k', v'⟩ := e
    obtain ⟨hhd, htl⟩ := List.pairwise_cons.mp h
    -- a key smaller than every later key is not among them
    have hfresh : ∀ {l : List (κ × α)}, (∀ e ∈ l, k < e.1) → remove k l = l := fun hl =>
      List.filter_eq_self.mpr fun e he => by simpa using (hl e he).ne'
    rw [insert]
    split_ifs with h1 h2
    · have hl : ∀ e ∈ (k', v') :: m, k < e.1 := by
        intro e he
        rcases List.mem_cons.mp he with rfl | he
        · exact h1
        · exact h1.trans (hhd e he)
      rw [hfresh hl]
    · subst h2
      have hr : remove k ((k, v') :: m) = remove k m := by simp [remove]
      rw [hr, hfresh hhd]
    · have hr : remove k ((k', v') :: m) = (k', v') :: remove k m := by
        simp [remove, Ne.symm h2]
      rw [hr]
      exact ((ih htl).cons _).trans (List.Perm.swap _ _ _)

/-- **`remove` takes one entry away.** -/
theorem perm_remove (h : Ordered m) (hk : get k m = some o) :
    m.Perm ((k, o) :: remove k m) := by
  induction m with
  | nil => simp at hk
  | cons e m ih =>
    obtain ⟨k', v'⟩ := e
    obtain ⟨hhd, htl⟩ := List.pairwise_cons.mp h
    by_cases hkk : k = k'
    · subst hkk
      have hv : v' = o := by simpa using hk
      have hr : remove k ((k, v') :: m) = m := by
        have : remove k m = m := List.filter_eq_self.mpr fun e he => by
          simpa using (hhd e he).ne'
        rw [← this]
        simp [remove]
      rw [hr, hv]
    · have hk' : get k m = some o := by
        rwa [get_cons, if_neg hkk] at hk
      have hr : remove k ((k', v') :: m) = (k', v') :: remove k m := by
        simp [remove, Ne.symm hkk]
      rw [hr]
      exact ((ih htl hk').cons _).trans (List.Perm.swap _ _ _)

/-- Overwriting a key with its own value changes nothing. -/
theorem insert_get (h : Ordered m) (hk : get k m = some o) : insert k o m = m := by
  induction m with
  | nil => simp at hk
  | cons e m ih =>
    obtain ⟨k', v'⟩ := e
    obtain ⟨hhd, htl⟩ := List.pairwise_cons.mp h
    rw [get_cons] at hk
    rw [insert]
    split_ifs at hk with hkk
    · subst hkk
      simp only [lt_irrefl, if_false, if_true, Option.some.inj hk]
    · obtain ⟨e, he, hek⟩ := List.mem_map.mp (mem_keys_iff.mpr (Option.isSome_of_eq_some hk))
      have hlt : k' < k := hek ▸ hhd e he
      rw [if_neg hlt.not_gt, if_neg hkk, ih htl hk]

theorem Ordered.keys (h : Ordered m) : (m.map Prod.fst).Pairwise (· < ·) :=
  List.pairwise_map.mpr h

end YontiOs.BTreeMap
