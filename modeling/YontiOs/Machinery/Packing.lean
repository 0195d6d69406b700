import Mathlib

/-!
# Machinery/Packing — extents of addresses side by side

An `Extent` is a start and a size.  `Packed lo hi l` says that the extents of `l` lie between `lo`
and `hi` and are pairwise apart.  The order of the list is immaterial (`Packed.perm`), and an extent
may be replaced by extents packed into it (`Packed.replace`), which is all that allocation and
release do.
-/

namespace YontiOs

/-- The addresses from `start` on, `size` of them. -/
structure Extent where
  start : ℕ
  size : ℕ
deriving DecidableEq, Repr

namespace Extent

variable {r r' r₁ r₂ : Extent}

/-- The address behind the last one. -/
def stop (r : Extent) : ℕ := r.start + r.size

/-- One ends before the other begins. -/
def Apart (r r' : Extent) : Prop := r.stop ≤ r'.start ∨ r'.stop ≤ r.start

instance : Decidable (Apart r r') := inferInstanceAs (Decidable (_ ∨ _))

/-- `r'` is a part of `r`. -/
def Within (r' r : Extent) : Prop := r.start ≤ r'.start ∧ r'.stop ≤ r.stop

theorem Apart.symm (h : Apart r r') : Apart r' r := Or.symm h

/-- Parts of extents that are apart are apart. -/
theorem Apart.mono (h : Apart r₁ r₂) (h₁ : Within r r₁) (h₂ : Within r' r₂) : Apart r r' := by
  simp only [Apart, Within] at *
  omega

/-- An extent among others is apart from each of them. -/
theorem pairwise_middle {xs ys : List Extent} (h : (xs ++ r :: ys).Pairwise Apart) :
    (∀ q ∈ xs ++ ys, Apart r q) ∧ (xs ++ ys).Pairwise Apart :=
  List.pairwise_cons.mp ((List.perm_middle.pairwise_iff Apart.symm).mp h)

/-- The sizes of the extents together. -/
def total (l : List Extent) : ℕ := (l.map size).sum

@[simp] theorem total_nil : total [] = 0 := rfl

@[simp] theorem total_cons (l : List Extent) : total (r :: l) = r.size + total l := rfl

@[simp] theorem total_append (l l' : List Extent) : total (l ++ l') = total l + total l' := by
  simp [total]

/-- The addresses of the extents. -/
def cover (l : List Extent) : Finset ℕ := l.foldr (fun r s => Finset.Ico r.start r.stop ∪ s) ∅

theorem cover_cons (l : List Extent) : cover (r :: l) = Finset.Ico r.start r.stop ∪ cover l := rfl

theorem mem_cover {l : List Extent} {x : ℕ} :
    x ∈ cover l ↔ ∃ r ∈ l, r.start ≤ x ∧ x < r.stop := by
  induction l with
  | nil => simp [cover]
  | cons r l ih =>
    rw [cover_cons, Finset.mem_union, ih, Finset.mem_Ico]
    simp

/-- Extents that are apart have as many addresses as their sizes say. -/
theorem card_cover {l : List Extent} (h : l.Pairwise Apart) : (cover l).card = total l := by
  induction l with
  | nil => rfl
  | cons r l ih =>
    obtain ⟨hr, hl⟩ := List.pairwise_cons.mp h
    have hsize : r.stop - r.start = r.size := Nat.add_sub_cancel_left _ _
    rw [cover_cons, Finset.card_union_of_disjoint, ih hl, Nat.card_Ico, total_cons, hsize]
    rw [Finset.disjoint_left]
    intro x hx hx'
    obtain ⟨q, hq, hq'⟩ := mem_cover.mp hx'
    rw [Finset.mem_Ico] at hx
    rcases hr q hq with h | h <;> omega

theorem total_perm {l l' : List Extent} (h : l.Perm l') : total l = total l' := (h.map size).sum_eq

end Extent

open Extent

/-- The extents are between `lo` and `hi`, and pairwise apart. -/
structure Packed (lo hi : ℕ) (l : List Extent) : Prop where
  inside : ∀ r ∈ l, lo ≤ r.start ∧ r.stop ≤ hi
  apart : l.Pairwise Apart

namespace Packed

variable {lo hi : ℕ} {r : Extent} {l l' ps : List Extent}

theorem perm (h : Packed lo hi l) (hp : l.Perm l') : Packed lo hi l' :=
  ⟨fun r hr => h.inside r (hp.mem_iff.mpr hr), (hp.pairwise_iff Apart.symm).mp h.apart⟩

theorem sublist (h : Packed lo hi l) (hs : l'.Sublist l) : Packed lo hi l' :=
  ⟨fun r hr => h.inside r (hs.subset hr), h.apart.sublist hs⟩

/-- **What is packed into a range is no larger than the range.** -/
theorem total_le (h : Packed lo hi l) : total l ≤ hi - lo := by
  rw [← card_cover h.apart, ← Nat.card_Ico]
  refine Finset.card_le_card fun x hx => ?_
  obtain ⟨r, hr, hx⟩ := mem_cover.mp hx
  have := h.inside r hr
  rw [Finset.mem_Ico]
  omega

/-- One more extent behind all others. -/
theorem cons_of_le (h : Packed lo hi l) (hlo : lo ≤ hi) (hr : hi ≤ r.start) :
    Packed lo r.stop (r :: l) := by
  have hle : r.start ≤ r.stop := Nat.le_add_right _ _
  refine ⟨List.forall_mem_cons.mpr ⟨⟨hlo.trans hr, le_rfl⟩, fun q hq => ?_⟩,
    List.pairwise_cons.mpr ⟨fun q hq => .inr ((h.inside q hq).2.trans hr), h.apart⟩⟩
  have := h.inside q hq
  exact ⟨this.1, this.2.trans (hr.trans hle)⟩

/-- **Replacing an extent by extents packed into it.** -/
theorem replace (h : Packed lo hi (r :: l)) (hp : Packed r.start r.stop ps) :
    Packed lo hi (ps ++ l) := by
  obtain ⟨hr, hl⟩ := List.pairwise_cons.mp h.apart
  have hin := h.inside r List.mem_cons_self
  refine ⟨fun q hq => ?_, List.pairwise_append.mpr ⟨hp.apart, hl, fun q hq q' hq' => ?_⟩⟩
  · rcases List.mem_append.mp hq with hq | hq
    · have := hp.inside q hq
      exact ⟨hin.1.trans this.1, this.2.trans hin.2⟩
    · exact h.inside q (List.mem_cons_of_mem _ hq)
  · exact (hr q' hq').mono (hp.inside q hq) ⟨le_rfl, le_rfl⟩

end Packed

end YontiOs
