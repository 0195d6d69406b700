import Mathlib

/-!
# Machinery/DList — doubly linked lists over any store of links

An intrusive list lives in two partial maps, `nx` and `pv`, from a node to its neighbours.
`Linked nx pv p l` says that following `nx` from the head of `l` runs through `l` and ends, and that
`pv` runs back, the node before the head being `p`.

The two edits are `Linked.pushFront` and `Linked.unlink`.  Each asks for the new links at the nodes
an edit writes and for the old ones everywhere else, so a user shows what its stores do to `nx` and
`pv` and never inducts over the list again.
-/

namespace YontiOs.DList

variable {κ : Type*} {nx pv nx' pv' : κ → Option κ} {p : Option κ} {a : κ} {l l₁ l₂ : List κ}

/-- `l` is threaded through `nx` and back through `pv`, with `p` before its head. -/
def Linked (nx pv : κ → Option κ) : Option κ → List κ → Prop
  | _, [] => True
  | p, a :: l => pv a = p ∧ nx a = l.head? ∧ Linked nx pv (some a) l

/-- Only the links of the list's own nodes matter. -/
theorem Linked.congr (h : Linked nx pv p l) (hag : ∀ b ∈ l, nx' b = nx b ∧ pv' b = pv b) :
    Linked nx' pv' p l := by
  induction l generalizing p with
  | nil => trivial
  | cons a l ih =>
    obtain ⟨hpv, hnx, hl⟩ := h
    obtain ⟨hnx', hpv'⟩ := hag a List.mem_cons_self
    exact ⟨hpv'.trans hpv, hnx'.trans hnx, ih hl fun b hb => hag b (List.mem_cons_of_mem _ hb)⟩

/-- A list may be entered from another node, once its head points back there. -/
theorem Linked.rehead {q : Option κ} (h : Linked nx pv p l) (hnd : l.Nodup)
    (hhd : ∀ b ∈ l.head?, pv' b = q) (hnx : ∀ b ∈ l, nx' b = nx b)
    (hpv : ∀ b ∈ l, l.head? ≠ some b → pv' b = pv b) : Linked nx' pv' q l := by
  rcases l with _ | ⟨a, l⟩
  · trivial
  · obtain ⟨-, hna, hl⟩ := h
    refine ⟨hhd a rfl, (hnx a List.mem_cons_self).trans hna, hl.congr fun b hb => ?_⟩
    have hba : b ≠ a := fun hba => (List.nodup_cons.mp hnd).1 (hba ▸ hb)
    have hmem : b ∈ a :: l := List.mem_cons_of_mem _ hb
    exact ⟨hnx b hmem, hpv b hmem fun h => hba (Option.some.inj h).symm⟩

/-- **Pushing a node in front**: it points at the old head, the old head points back at it. -/
theorem Linked.pushFront (h : Linked nx pv none l) (hnd : l.Nodup) (ha : nx' a = l.head?)
    (ha' : pv' a = none) (hhd : ∀ b ∈ l.head?, pv' b = some a) (hnx : ∀ b ∈ l, nx' b = nx b)
    (hpv : ∀ b ∈ l, l.head? ≠ some b → pv' b = pv b) : Linked nx' pv' none (a :: l) :=
  ⟨ha', ha, h.rehead hnd hhd hnx hpv⟩

/-- The neighbours a node of a list names. -/
theorem Linked.neighbours (h : Linked nx pv p (l₁ ++ a :: l₂)) :
    pv a = l₁.getLast?.or p ∧ nx a = l₂.head? := by
  induction l₁ generalizing p with
  | nil => exact ⟨h.1, h.2.1⟩
  | cons b l₁ ih =>
    obtain ⟨hpv, hnx⟩ := ih h.2.2
    refine ⟨hpv.trans ?_, hnx⟩
    rw [List.getLast?_cons]
    cases l₁.getLast? <;> rfl

/-- **Unlinking a node**: its neighbours are pointed at each other. -/
theorem Linked.unlink (h : Linked nx pv p (l₁ ++ a :: l₂)) (hnd : (l₁ ++ a :: l₂).Nodup)
    (hlast : ∀ b ∈ l₁.getLast?, nx' b = l₂.head?)
    (hhead : ∀ b ∈ l₂.head?, pv' b = l₁.getLast?.or p)
    (hnx : ∀ b ∈ l₁ ++ l₂, l₁.getLast? ≠ some b → nx' b = nx b)
    (hpv : ∀ b ∈ l₁ ++ l₂, l₂.head? ≠ some b → pv' b = pv b) :
    Linked nx' pv' p (l₁ ++ l₂) := by
  induction l₁ generalizing p with
  | nil =>
    exact h.2.2.rehead (List.nodup_cons.mp hnd).2 hhead (fun b hb => hnx b hb (by simp)) hpv
  | cons c l₁ ih =>
    obtain ⟨hpc, hnc, htl⟩ := h
    have hnd' := (List.nodup_cons.mp hnd).2
    have hcmem : c ∉ l₁ ++ a :: l₂ := (List.nodup_cons.mp hnd).1
    have hor : (c :: l₁).getLast?.or p = l₁.getLast?.or (some c) := by
      rw [List.getLast?_cons]
      cases l₁.getLast? <;> rfl
    have hc2 : l₂.head? ≠ some c := fun hh =>
      hcmem (List.mem_append_right _ (List.mem_cons_of_mem _ (List.mem_of_head? hh)))
    refine ⟨(hpv c (by simp) hc2).trans hpc, ?_, ?_⟩
    · -- the node before the tail is either `c` itself, or it keeps its link
      rcases hl : l₁ with _ | ⟨d, l₁'⟩
      · exact hlast c (by simp [hl])
      · rw [hnx c (by simp) ?_, hnc, hl]
        · rfl
        · rw [hl, List.getLast?_cons_cons]
          intro hh
          exact hcmem (List.mem_append_left _ (hl ▸ List.mem_of_getLast? hh))
    · refine ih htl hnd' (fun b hb => hlast b ?_) (fun b hb => hor ▸ hhead b hb)
        (fun b hb hne => hnx b (by simpa using Or.inr hb) ?_)
        (fun b hb => hpv b (by simpa using Or.inr hb))
      · rw [List.getLast?_cons, hb]
        rfl
      · rw [List.getLast?_cons]
        cases hg : l₁.getLast? with
        | none =>
          intro hh
          refine hcmem ?_
          obtain rfl : c = b := by simpa using hh
          rcases List.mem_append.mp hb with hb | hb
          · exact List.mem_append_left _ hb
          · exact List.mem_append_right _ (List.mem_cons_of_mem _ hb)
        | some d => simpa [hg] using hne

end YontiOs.DList
