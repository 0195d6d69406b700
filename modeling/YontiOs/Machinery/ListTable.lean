import YontiOs.Machinery.DList

/-!
# Machinery/ListTable — a table of intrusive lists that share no node

A segregated store keeps one intrusive list for each class.  `Table nx pv L` says that the lists
`L i` are all threaded through the same two link maps and that no node is on two of them.  The edits
are those of one list, `Table.push` and `Table.unlink`; the lemmas say that the other lists do not
see them.
-/

namespace YontiOs

open DList

variable {ι κ : Type*} {nx pv nx' pv' : κ → Option κ} {L : ι → List κ} {i j : ι}
  {a b : κ} {l₁ l₂ : List κ}

/-- `a` is on one of the lists. -/
def Listed (L : ι → List κ) (a : κ) : Prop := ∃ i, a ∈ L i

/-- The lists of `L` are threaded through `nx` and `pv`, and share no node. -/
structure Table (nx pv : κ → Option κ) (L : ι → List κ) : Prop where
  linked : ∀ i, Linked nx pv none (L i)
  nodup : ∀ i, (L i).Nodup
  unique : ∀ {a i j}, a ∈ L i → a ∈ L j → j = i

namespace Table

/-- Only the links of listed nodes matter. -/
theorem congr (h : Table nx pv L) (hag : ∀ b, Listed L b → nx' b = nx b ∧ pv' b = pv b) :
    Table nx' pv' L :=
  ⟨fun i => (h.linked i).congr fun b hb => hag b ⟨i, hb⟩, h.nodup, h.unique⟩

/-- The empty table. -/
theorem empty : Table nx pv (fun _ : ι => []) :=
  ⟨fun _ => trivial, fun _ => List.nodup_nil, fun h => nomatch h⟩

/-- The list around one of its nodes, and without it. -/
theorem exists_around [DecidableEq κ] (h : Table nx pv L) (ha : a ∈ L i) :
    ∃ l₁ l₂, L i = l₁ ++ a :: l₂ ∧ (L i).erase a = l₁ ++ l₂ ∧ pv a = l₁.getLast? ∧
      nx a = l₂.head? := by
  obtain ⟨l₁, l₂, hL⟩ := List.append_of_mem ha
  have hnd := hL ▸ h.nodup i
  have ha₁ : a ∉ l₁ := fun hm => List.disjoint_of_nodup_append hnd hm List.mem_cons_self
  obtain ⟨hpv, hnx⟩ := (hL ▸ h.linked i).neighbours
  refine ⟨l₁, l₂, hL, ?_, by rwa [Option.or_none] at hpv, hnx⟩
  rw [hL, List.erase_append_right _ ha₁, List.erase_cons_head]

/-- The neighbours a listed node names are listed with it. -/
theorem listed_neighbours [DecidableEq κ] (h : Table nx pv L) (ha : a ∈ L i) :
    (∀ c ∈ pv a, c ∈ L i) ∧ ∀ c ∈ nx a, c ∈ L i := by
  obtain ⟨l₁, l₂, hL, -, hpa, hna⟩ := h.exists_around ha
  rw [hpa, hna, hL]
  exact ⟨fun c hc => List.mem_append_left _ (List.mem_of_getLast? hc),
    fun c hc => List.mem_append_right _ (List.mem_cons_of_mem _ (List.mem_of_head? hc))⟩

/-- The head after a removal: the node behind it, if the head was removed, else the same. -/
theorem head?_erase [DecidableEq κ] (h : Table nx pv L) (ha : a ∈ L i) :
    ((L i).erase a).head? = (pv a).elim (nx a) fun _ => (L i).head? := by
  obtain ⟨l₁, l₂, hL, herase, hpa, hna⟩ := h.exists_around ha
  rw [herase, hpa, hna, hL]
  rcases l₁ with _ | ⟨c, l₁⟩
  · rfl
  · rw [List.getLast?_cons]
    rfl

variable [DecidableEq ι]

/-- The members after a push. -/
theorem mem_push : b ∈ Function.update L i (a :: L i) j ↔ (b = a ∧ j = i) ∨ b ∈ L j := by
  by_cases hj : j = i
  · subst hj
    simp
  · rw [Function.update_of_ne hj]
    exact ⟨.inr, fun h => h.resolve_left fun h => hj h.2⟩

theorem listed_push : Listed (Function.update L i (a :: L i)) b ↔ b = a ∨ Listed L b := by
  simp only [Listed, mem_push]
  constructor
  · rintro ⟨j, ⟨hb, -⟩ | hb⟩
    · exact .inl hb
    · exact .inr ⟨j, hb⟩
  · rintro (hb | ⟨j, hb⟩)
    · exact ⟨i, .inl ⟨hb, rfl⟩⟩
    · exact ⟨j, .inr hb⟩

/-- **A fresh node pushed in front of one list.** -/
theorem push (h : Table nx pv L) (hfresh : ¬ Listed L a) (hna : nx' a = (L i).head?)
    (hpa : pv' a = none) (hnx : ∀ b, Listed L b → nx' b = nx b)
    (hpv : ∀ b, Listed L b → (L i).head? ≠ some b → pv' b = pv b)
    (hhd : ∀ b, (L i).head? = some b → pv' b = some a) :
    Table nx' pv' (Function.update L i (a :: L i)) where
  linked j := by
    by_cases hj : j = i
    · subst hj
      rw [Function.update_self]
      exact (h.linked j).pushFront (h.nodup j) hna hpa hhd (fun b hb => hnx b ⟨j, hb⟩)
        fun b hb => hpv b ⟨j, hb⟩
    · rw [Function.update_of_ne hj]
      exact (h.linked j).congr fun b hb => ⟨hnx b ⟨j, hb⟩,
        hpv b ⟨j, hb⟩ fun hh => hj (h.unique (List.mem_of_head? hh) hb)⟩
  nodup j := by
    by_cases hj : j = i
    · subst hj
      rw [Function.update_self]
      exact List.nodup_cons.mpr ⟨fun hm => hfresh ⟨j, hm⟩, h.nodup j⟩
    · rw [Function.update_of_ne hj]
      exact h.nodup j
  unique {b i₁ i₂} h1 h2 := by
    rcases mem_push.mp h1 with ⟨hb1, rfl⟩ | hb1 <;> rcases mem_push.mp h2 with ⟨hb2, rfl⟩ | hb2
    · rfl
    · exact absurd ⟨_, hb1 ▸ hb2⟩ hfresh
    · exact absurd ⟨_, hb2 ▸ hb1⟩ hfresh
    · exact h.unique hb1 hb2

variable [DecidableEq κ]

/-- The members after a removal. -/
theorem mem_erase (h : Table nx pv L) (ha : a ∈ L i) :
    b ∈ Function.update L i ((L i).erase a) j ↔ b ∈ L j ∧ b ≠ a := by
  by_cases hj : j = i
  · subst hj
    rw [Function.update_self, (h.nodup j).mem_erase_iff, and_comm]
  · rw [Function.update_of_ne hj]
    exact ⟨fun hb => ⟨hb, fun hba => hj (h.unique ha (hba ▸ hb))⟩, And.left⟩

/-- **A node unlinked from its list**: the neighbours it names are pointed at each other. -/
theorem unlink (h : Table nx pv L) (ha : a ∈ L i)
    (hnx : ∀ b, Listed L b → nx' b = if pv a = some b then nx a else nx b)
    (hpv : ∀ b, Listed L b → pv' b = if nx a = some b then pv a else pv b) :
    Table nx' pv' (Function.update L i ((L i).erase a)) := by
  obtain ⟨l₁, l₂, hL, herase, hpa, hna⟩ := h.exists_around ha
  rw [hpa, hna] at hnx hpv
  have hmem : ∀ b, b ∈ l₁ ++ l₂ → b ∈ L i := fun b hb => List.mem_of_mem_erase (herase ▸ hb)
  refine ⟨fun j => ?_, fun j => ?_, fun h1 h2 => ?_⟩
  · by_cases hj : j = i
    · subst hj
      rw [Function.update_self, herase]
      refine (hL ▸ h.linked j).unlink (hL ▸ h.nodup j) (fun b hb => ?_) (fun b hb => ?_)
        (fun b hb hne => ?_) (fun b hb hne => ?_)
      · rw [hnx b ⟨j, hmem b (List.mem_append_left _ (List.mem_of_getLast? hb))⟩,
          if_pos (Option.mem_def.mp hb)]
      · rw [hpv b ⟨j, hmem b (List.mem_append_right _ (List.mem_of_head? hb))⟩,
          if_pos (Option.mem_def.mp hb), Option.or_none]
      · rw [hnx b ⟨j, hmem b hb⟩, if_neg hne]
      · rw [hpv b ⟨j, hmem b hb⟩, if_neg hne]
    · rw [Function.update_of_ne hj]
      refine (h.linked j).congr fun b hb => ⟨?_, ?_⟩
      · rw [hnx b ⟨j, hb⟩, if_neg fun hh => hj (h.unique (hmem b
          (List.mem_append_left _ (List.mem_of_getLast? hh))) hb)]
      · rw [hpv b ⟨j, hb⟩, if_neg fun hh => hj (h.unique (hmem b
          (List.mem_append_right _ (List.mem_of_head? hh))) hb)]
  · by_cases hj : j = i
    · subst hj
      rw [Function.update_self]
      exact (h.nodup j).erase a
    · rw [Function.update_of_ne hj]
      exact h.nodup j
  · exact h.unique ((h.mem_erase ha).mp h1).1 ((h.mem_erase ha).mp h2).1

end Table

end YontiOs
