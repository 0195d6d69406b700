import YontiOs.Allocator.Tags

/-!
# Allocator/Blocks — a heap as a list of blocks

Physically a heap is a list of blocks laid end to end.  `place a bs` gives each its address, and
`Tagged m a p bs` says that memory holds their headers: every block's own size and state, and its
predecessor's, the first predecessor being `p`.  The sentinel is a block of size 0 at the end.

Everything the allocator does to headers is a splice of such a list, so the lemmas are about
appending.
-/

namespace YontiOs.Tlsf

/-- A block of the heap. -/
structure Block where
  size : ℕ
  free : Bool
deriving DecidableEq, Repr

/-- The header behind the last block: size 0, never free. -/
def sentinel : Block := ⟨0, false⟩

variable {m m' : Mem} {a x : ℕ} {p q b t : Block} {bs xs ys : List Block}

/-! ## Layout -/

/-- The bytes a list of blocks covers. -/
def total (bs : List Block) : ℕ := (bs.map Block.size).sum

@[simp] theorem total_nil : total [] = 0 := rfl

@[simp] theorem total_cons : total (b :: bs) = b.size + total bs := rfl

@[simp] theorem total_append : total (xs ++ ys) = total xs + total ys := by
  simp [total]

/-- The blocks with their addresses, the first at `a`. -/
def place : ℕ → List Block → List (ℕ × Block)
  | _, [] => []
  | a, b :: bs => (a, b) :: place (a + b.size) bs

@[simp] theorem place_nil : place a [] = [] := rfl

@[simp] theorem place_cons : place a (b :: bs) = (a, b) :: place (a + b.size) bs := rfl

theorem place_append : place a (xs ++ ys) = place a xs ++ place (a + total xs) ys := by
  induction xs generalizing a with
  | nil => simp
  | cons b xs ih => simp [ih, add_assoc]

/-- A placed block is one of the list, inside the bytes it covers. -/
theorem place_bounds (h : (x, b) ∈ place a bs) :
    b ∈ bs ∧ a ≤ x ∧ x + b.size ≤ a + total bs := by
  induction bs generalizing a with
  | nil => cases h
  | cons c bs ih =>
    rw [place_cons, List.mem_cons, Prod.mk.injEq] at h
    rcases h with ⟨rfl, rfl⟩ | h
    · simp
    · obtain ⟨hb, hlo, hhi⟩ := ih h
      exact ⟨List.mem_cons_of_mem _ hb, by omega, by rw [total_cons]; omega⟩

/-- **A placed block splits the list** at its address. -/
theorem exists_split_of_mem_place (h : (x, b) ∈ place a bs) :
    ∃ xs ys, bs = xs ++ b :: ys ∧ x = a + total xs := by
  induction bs generalizing a with
  | nil => cases h
  | cons c bs ih =>
    rw [place_cons, List.mem_cons, Prod.mk.injEq] at h
    rcases h with ⟨rfl, rfl⟩ | h
    · exact ⟨[], bs, rfl, by simp⟩
    · obtain ⟨xs, ys, rfl, rfl⟩ := ih h
      exact ⟨c :: xs, ys, rfl, by rw [total_cons]; omega⟩

theorem mem_place_middle : (a + total xs, b) ∈ place a (xs ++ b :: ys) := by
  rw [place_append, place_cons]
  exact List.mem_append_right _ List.mem_cons_self

/-- Every block of the heap is a multiple of 8, and holds a header and a free node. -/
def Sized (bs : List Block) : Prop := ∀ b ∈ bs, b.size % 8 = 0 ∧ 32 ≤ b.size

theorem sized_nil : Sized [] := fun _ h => nomatch h

theorem sized_append : Sized (xs ++ ys) ↔ Sized xs ∧ Sized ys := List.forall_mem_append

theorem sized_cons : Sized (b :: bs) ↔ (b.size % 8 = 0 ∧ 32 ≤ b.size) ∧ Sized bs :=
  List.forall_mem_cons

/-- Blocks lie on multiples of 8. -/
theorem Sized.total_mod (h : Sized bs) : total bs % 8 = 0 := by
  induction bs with
  | nil => rfl
  | cons b bs ih =>
    obtain ⟨hb, hbs⟩ := sized_cons.mp h
    have := ih hbs
    rw [total_cons]
    omega

theorem Sized.place_mod (h : Sized bs) (ha : a % 8 = 0) (hx : (x, b) ∈ place a bs) :
    x % 8 = 0 := by
  obtain ⟨xs, ys, rfl, rfl⟩ := exists_split_of_mem_place hx
  have := (sized_append.mp h).1.total_mod
  omega

/-- **Two placed blocks are the same, or one ends where or before the other begins.** -/
theorem place_separate {y : ℕ} {c : Block} (hx : (x, b) ∈ place a bs) (hy : (y, c) ∈ place a bs) :
    (x = y ∧ b = c) ∨ x + b.size ≤ y ∨ y + c.size ≤ x := by
  induction bs generalizing a with
  | nil => cases hx
  | cons d bs ih =>
    rw [place_cons, List.mem_cons, Prod.mk.injEq] at hx hy
    rcases hx with ⟨rfl, rfl⟩ | hx <;> rcases hy with ⟨rfl, rfl⟩ | hy
    · exact .inl ⟨rfl, rfl⟩
    · exact .inr (.inl (place_bounds hy).2.1)
    · exact .inr (.inr (place_bounds hx).2.1)
    · exact ih hx hy

/-! ## Headers -/

/-- Memory holds the headers of `bs` from `a` on, behind a block `p`. -/
def Tagged (m : Mem) : ℕ → Block → List Block → Prop
  | _, _, [] => True
  | a, p, b :: bs =>
    header m a = tagged p.size b.size b.free p.free ∧ Tagged m (a + b.size) b bs

@[simp] theorem tagged_nil : Tagged m a p [] := trivial

theorem tagged_cons : Tagged m a p (b :: bs) ↔
    header m a = tagged p.size b.size b.free p.free ∧ Tagged m (a + b.size) b bs :=
  Iff.rfl

theorem tagged_append :
    Tagged m a p (xs ++ ys) ↔ Tagged m a p xs ∧ Tagged m (a + total xs) (xs.getLastD p) ys := by
  induction xs generalizing a p with
  | nil => simp
  | cons b xs ih =>
    rw [List.cons_append, tagged_cons, ih, tagged_cons, List.getLastD_cons, total_cons, and_assoc,
      add_assoc]

/-- Only the headers of the list's own blocks matter. -/
theorem Tagged.congr (h : Tagged m a p bs)
    (hag : ∀ x b, (x, b) ∈ place a bs → header m' x = header m x) : Tagged m' a p bs := by
  induction bs generalizing a p with
  | nil => trivial
  | cons b bs ih =>
    exact ⟨(hag a b List.mem_cons_self).trans h.1,
      ih h.2 fun x c hx => hag x c (List.mem_cons_of_mem _ hx)⟩

/-- The first header behind `p` is the only one that names `p`. -/
theorem Tagged.behind (h : Tagged m a p (b :: bs))
    (hb : header m' a = tagged q.size b.size b.free q.free)
    (hag : ∀ x c, (x, c) ∈ place (a + b.size) bs → header m' x = header m x) :
    Tagged m' a q (b :: bs) :=
  ⟨hb, h.2.congr hag⟩

/-- The header of a block in the middle of a tagged list. -/
theorem Tagged.header_middle (h : Tagged m a p (xs ++ b :: ys)) :
    header m (a + total xs) = tagged (xs.getLastD p).size b.size b.free (xs.getLastD p).free :=
  (tagged_append.mp h).2.1

end YontiOs.Tlsf
