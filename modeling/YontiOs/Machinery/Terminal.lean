import YontiOs.Machinery.Grid

/-!
# Machinery/Terminal — a character terminal

`Terminal rows cols α` is a grid of cells with a cursor.  A character goes to the cursor's cell;
when the row is full the cursor waits behind its last cell, and the next character starts a new row.
A new row at the bottom scrolls the grid up.

`index` numbers the cells row by row.  The end of a full row and the start of the next one have the
same index, so `put` writes the cell at the index and moves on by one (`index_put`, `cell_put`)
whichever of the two the cursor is at.
-/

namespace YontiOs

/-- A grid with a cursor, which may wait behind the last cell of its row. -/
structure Terminal (rows cols : ℕ) (α : Type*) where
  cell : ℕ → ℕ → Option α
  row : ℕ
  col : ℕ
  row_lt : row < rows
  col_le : col ≤ cols
  cols_pos : 0 < cols
  below : ∀ r c, rows ≤ r → cell r c = none

namespace Terminal

variable {rows cols : ℕ} {α : Type*} {t : Terminal rows cols α} {a : α} {r c : ℕ}

def blank (hrows : 0 < rows) (hcols : 0 < cols) : Terminal rows cols α where
  cell _ _ := none
  row := 0
  col := 0
  row_lt := hrows
  col_le := Nat.zero_le _
  cols_pos := hcols
  below _ _ _ := rfl

/-- To the start of the next row, which comes in blank at the bottom. -/
def lineFeed (t : Terminal rows cols α) : Terminal rows cols α :=
  if h : t.row + 1 < rows then
    { t with row := t.row + 1, col := 0, row_lt := h, col_le := Nat.zero_le _ }
  else
    { t with
      cell := fun r c => t.cell (r + 1) c
      col := 0
      col_le := Nat.zero_le _
      below := fun r c hr => t.below (r + 1) c (Nat.le_succ_of_le hr) }

/-- Write the cell at the cursor and step over it. -/
def write (t : Terminal rows cols α) (a : α) (h : t.col < cols) : Terminal rows cols α :=
  { t with
    cell := fun r c => if r = t.row ∧ c = t.col then some a else t.cell r c
    col := t.col + 1
    col_le := h
    below := fun r c hr => by
      rw [if_neg fun hrc => absurd t.row_lt (by omega), t.below r c hr] }

theorem cell_write_self (t : Terminal rows cols α) (h : t.col < cols) (hr : r = t.row)
    (hc : c = t.col) : (t.write a h).cell r c = some a := if_pos ⟨hr, hc⟩

theorem cell_write_of_ne (h : t.col < cols) (hrc : ¬ (r = t.row ∧ c = t.col)) :
    (t.write a h).cell r c = t.cell r c := if_neg hrc

@[simp] theorem col_lineFeed : t.lineFeed.col = 0 := by
  rw [lineFeed]
  split_ifs <;> rfl

/-- Put a character, on a new row when this one is full. -/
def put (t : Terminal rows cols α) (a : α) : Terminal rows cols α :=
  if h : t.col < cols then t.write a h
  else t.lineFeed.write a (col_lineFeed.trans_lt t.cols_pos)

/-- One cell back, within the row. -/
def back (t : Terminal rows cols α) : Terminal rows cols α :=
  { t with col := t.col - 1, col_le := (Nat.sub_le _ _).trans t.col_le }

/-! ## Cells that were never written -/

/-- Nothing is at the cursor or after it. -/
def Fresh (t : Terminal rows cols α) : Prop :=
  ∀ r c, (t.row < r ∨ t.row = r ∧ t.col ≤ c) → t.cell r c = none

theorem fresh_blank (hrows : 0 < rows) (hcols : 0 < cols) :
    (blank hrows hcols : Terminal rows cols α).Fresh := fun _ _ _ => rfl

theorem Fresh.lineFeed (h : t.Fresh) : t.lineFeed.Fresh := by
  intro r c hrc
  rw [Terminal.lineFeed] at hrc ⊢
  split_ifs at hrc ⊢ with hrow
  · exact h r c (.inl (by dsimp only at hrc; omega))
  · exact h (r + 1) c (.inl (by dsimp only at hrc; omega))

theorem Fresh.write (h : t.Fresh) (hc : t.col < cols) : (t.write a hc).Fresh := by
  intro r c hrc
  rw [Terminal.write] at hrc ⊢
  dsimp only at hrc ⊢
  rw [if_neg (by omega)]
  exact h r c (by omega)

theorem Fresh.put (h : t.Fresh) : (t.put a).Fresh := by
  rw [Terminal.put]
  split_ifs with hc
  · exact h.write hc
  · exact h.lineFeed.write _

/-! ## Cells by their index -/

/-- The number of the cell the cursor stands for. -/
def index (t : Terminal rows cols α) : ℕ := t.row * cols + t.col

theorem index_le (t : Terminal rows cols α) : t.index ≤ rows * cols := Grid.add_le t.row_lt t.col_le

/-- Where a full row is not the last one, the next row begins at the same index. -/
theorem lineFeed_of_full (hfull : ¬ t.col < cols) (hlt : t.index < rows * cols) :
    t.lineFeed.index = t.index ∧ t.lineFeed.cell = t.cell := by
  have hcol : t.col = cols := le_antisymm t.col_le (not_lt.mp hfull)
  have hrow : t.row + 1 < rows := by
    by_contra hlast
    have := Nat.mul_le_mul_right cols (not_lt.mp hlast)
    rw [index, hcol] at hlt
    rw [Nat.add_mul, Nat.one_mul] at this
    omega
  rw [lineFeed, dif_pos hrow, index, index]
  dsimp only
  rw [Nat.add_mul, Nat.one_mul, hcol]
  exact ⟨rfl, rfl⟩

theorem index_write (hc : t.col < cols) : (t.write a hc).index = t.index + 1 := by
  rw [index, index, write]
  rfl

theorem cell_write (hc : t.col < cols) (hcc : c < cols) :
    (t.write a hc).cell r c = if r * cols + c = t.index then some a else t.cell r c := by
  rw [write, index]
  dsimp only
  simp only [Grid.inj hcc hc]

/-- **A character goes to the index of the cursor.** -/
theorem index_put (hlt : t.index < rows * cols) : (t.put a).index = t.index + 1 := by
  rw [put]
  split_ifs with hc
  · exact index_write hc
  · rw [index_write, (lineFeed_of_full hc hlt).1]

theorem cell_put (hlt : t.index < rows * cols) (hcc : c < cols) :
    (t.put a).cell r c = if r * cols + c = t.index then some a else t.cell r c := by
  rw [put]
  split_ifs with hc hidx hidx
  · rw [cell_write hc hcc, if_pos hidx]
  · rw [cell_write hc hcc, if_neg hidx]
  · rw [cell_write _ hcc, (lineFeed_of_full hc hlt).1, if_pos hidx]
  · rw [cell_write _ hcc, (lineFeed_of_full hc hlt).1, if_neg hidx, (lineFeed_of_full hc hlt).2]

theorem index_back (h : 0 < t.col) : t.back.index + 1 = t.index := by
  rw [index, index, back]
  dsimp only
  omega

/-- The cell with a given number. -/
def cellAt (t : Terminal rows cols α) (j : ℕ) : Option α := t.cell (j / cols) (j % cols)

/-- The cell of the cursor by its number. -/
theorem cellAt_index (h : t.col < cols) : t.cellAt t.index = t.cell t.row t.col := by
  rw [cellAt, index, Grid.div h, Grid.mod h]

theorem cellAt_put (hlt : t.index < rows * cols) (j : ℕ) :
    (t.put a).cellAt j = if j = t.index then some a else t.cellAt j := by
  rw [cellAt, cell_put hlt (Nat.mod_lt j t.cols_pos), Grid.div_mul_add_mod, cellAt]

theorem index_lt (h : t.col < cols) : t.index < rows * cols := Grid.lt t.row_lt h

/-- Where there is a next cell, it is in the row or there is a next row. -/
theorem col_lt_or_two_le (hlt : t.index < rows * cols) : t.col < cols ∨ 2 ≤ rows := by
  by_contra! hfull
  have := Nat.mul_le_mul_right cols (show rows ≤ 1 by omega)
  rw [index] at hlt
  omega

/-- A character wiped: over the one before the cursor, within the row. -/
def wipe (t : Terminal rows cols α) (a : α) : Terminal rows cols α := (t.back.put a).back

theorem col_back_lt : t.back.col < cols := by
  have hcol := t.col_le
  have hcols := t.cols_pos
  rw [back]
  dsimp only
  omega

theorem wipe_eq : t.wipe a = { t.back.write a col_back_lt with
    col := t.back.col, col_le := t.back.col_le } := by
  rw [wipe, put, dif_pos col_back_lt]
  rfl

theorem index_wipe : (t.wipe a).index = t.back.index := by
  rw [wipe_eq]
  rfl

theorem cellAt_wipe (j : ℕ) :
    (t.wipe a).cellAt j = if j = t.back.index then some a else t.cellAt j :=
  cellAt_put (t := t.back) (index_lt col_back_lt) j

end Terminal

end YontiOs
