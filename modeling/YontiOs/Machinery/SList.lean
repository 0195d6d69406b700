import Mathlib

/-!
# Machinery/SList — singly linked lists over any store of links

`Chain nx h l` says that following `nx` from `h` runs through `l` and ends.  The edits are
`Chain.pushFront` and the removal of a node, at the front (`Chain.unlinkFront`) or behind another
one (`Chain.unlinkAfter`).  Each asks for the link an edit writes and for the old ones everywhere
else.
-/

namespace YontiOs.SList

variable {κ : Type*} {nx nx' : κ → Option κ} {h : Option κ} {a p : κ} {l l' l₁ l₂ : List κ}

/-- Following `nx` from `h` runs through `l`, and ends. -/
def Chain (nx : κ → Option κ) : Option κ → List κ → Prop
  | h, [] => h = none
  | h, a :: l => h = some a ∧ Chain nx (nx a) l

instance decidableChain [DecidableEq κ] : ∀ (h : Option κ) (l : List κ), Decidable (Chain nx h l)
  | h, [] => inferInstanceAs (Decidable (h = none))
  | h, a :: l =>
    have : Decidable (Chain nx (nx a) l) := decidableChain (nx a) l
    inferInstanceAs (Decidable (h = some a ∧ Chain nx (nx a) l))

/-- Only the links of the list's own nodes matter. -/
theorem Chain.congr (hl : Chain nx h l) (hag : ∀ b ∈ l, nx' b = nx b) : Chain nx' h l := by
  induction l generalizing h with
  | nil => exact hl
  | cons a l ih =>
    refine ⟨hl.1, ?_⟩
    rw [hag a List.mem_cons_self]
    exact ih hl.2 fun b hb => hag b (List.mem_cons_of_mem _ hb)

/-- A store of links threads one list from a head. -/
theorem Chain.unique (hl : Chain nx h l) (hl' : Chain nx h l') : l = l' := by
  induction l generalizing h l' with
  | nil =>
    cases l' with
    | nil => rfl
    | cons a l' => exact absurd (hl.symm.trans hl'.1) (by simp)
  | cons a l ih =>
    cases l' with
    | nil => exact absurd (hl'.symm.trans hl.1) (by simp)
    | cons b l' =>
      obtain rfl := Option.some.inj (hl.1.symm.trans hl'.1)
      rw [ih hl.2 hl'.2]

theorem Chain.head_eq (hl : Chain nx h l) : h = l.head? := by
  cases l with
  | nil => exact hl
  | cons a l => exact hl.1

/-- The list behind a node. -/
theorem Chain.behind (hl : Chain nx h (l₁ ++ p :: l₂)) : Chain nx (nx p) l₂ := by
  induction l₁ generalizing h with
  | nil => exact hl.2
  | cons b l₁ ih => exact ih hl.2

/-- **Pushing a node in front.** -/
theorem Chain.pushFront (hl : Chain nx h l) (ha : nx' a = h) (hag : ∀ b ∈ l, nx' b = nx b) :
    Chain nx' (some a) (a :: l) :=
  ⟨rfl, ha ▸ hl.congr hag⟩

/-- **Removing the front node**: the head gets its link. -/
theorem Chain.unlinkFront (hl : Chain nx h (a :: l)) (hag : ∀ b ∈ l, nx' b = nx b) :
    Chain nx' (nx a) l :=
  hl.2.congr hag

/-- **Removing the node behind `p`**: `p` gets its link. -/
theorem Chain.unlinkAfter (hl : Chain nx h (l₁ ++ p :: a :: l₂)) (hp : nx' p = nx a)
    (hag : ∀ b ∈ l₁ ++ l₂, nx' b = nx b) : Chain nx' h (l₁ ++ p :: l₂) := by
  induction l₁ generalizing h with
  | nil =>
    refine ⟨hl.1, ?_⟩
    rw [hp]
    exact hl.2.2.congr hag
  | cons b l₁ ih =>
    refine ⟨hl.1, ?_⟩
    rw [hag b List.mem_cons_self]
    exact ih hl.2 fun c hc => hag c (List.mem_cons_of_mem _ hc)

end YontiOs.SList
