import YontiOs.Framebuffer.Escape
import YontiOs.Framebuffer.Text
import YontiOs.Machinery.Run
import YontiOs.Shell.Console

/-!
# Shell/Line — the edited line on the screen

`Agrees s i` says that the screen shows the line from the cell numbered `i` on: its characters,
blank cells after them, and the cursor between.  `Line s i t` says the same of the terminal that the
screen shows, and is what a key keeps (`Line.push`, `Line.backspace`).

One key does not: a Backspace with the cursor in column 0.  `0x08` stays in its row, so the
character at the end of the row above is neither wiped nor left by the cursor
(`Line.not_agrees_backspace`).  The screen agrees with the line just as long as this does not happen
(`line_agrees_iff`).
-/

namespace YontiOs

open Framebuffer FrameBufferWriter

variable {rows cols : ℕ} {t : Terminal rows cols Ink} {w : FrameBufferWriter} {s : Console}
  {execute : Console → Option Console} {i : ℕ} {c : Char} {key : DecodedKey}

namespace Framebuffer

/-- The cell looks blank. -/
def Blank (cell : Option Ink) : Prop :=
  ∀ row < charHeight, ∀ col, cellColor id cell row col = (0, 0, 0)

theorem blank_space : Blank (some (plain 0x20)) := by
  intro row hrow col
  refine if_neg fun hlit => Bool.false_ne_true ((lit_space hrow col).symm.trans hlit)

namespace FrameBufferWriter

def textCols (w : FrameBufferWriter) : ℕ := w.info.width / w.cellWidth

def textRows (w : FrameBufferWriter) : ℕ := w.info.height / w.cellHeight

/-- A place in the cell numbered `j`, row by row. -/
def cellPlace (w : FrameBufferWriter) (j dy dx : ℕ) : ℕ × ℕ :=
  (j % w.textCols * w.cellWidth + dx, j / w.textCols * w.cellHeight + dy)

/-- A cursor on a blank cell leaves no trace. -/
theorem Shows.cursorClear_of_blank (h : Shows id w t) (hbg : w.bg = (0, 0, 0))
    (hblank : Blank (t.cellAt t.index)) : CursorClear id w t := by
  by_cases hcol : t.col < cols
  · intro x y _ hbar
    have hs := h.layout.scale_pos
    have hcell := bar_subset hbar
    rw [h.x_eq, h.y_eq, mem_rect_cell (cellWidth_pos hs) (cellHeight_pos hs)] at hcell
    rw [Terminal.cellAt_index hcol, ← hcell.1, ← hcell.2] at hblank
    rw [hbg]
    refine hblank _ ?_ _
    rw [Nat.div_lt_iff_lt_mul hs]
    exact Nat.mod_lt y (cellHeight_pos hs)
  · exact h.cursorClear_of_full hcol

/-- **The echo of a Backspace** wipes on the terminal what it can. -/
theorem Shows.writeString_wipe (h : Shows id w t) (hpen : PlainPen w)
    (hblank : ∀ j, t.index ≤ j → Blank (t.cellAt j)) :
    ∃ w', w.writeString [0x08, 0x20, 0x08] = some w' ∧ PlainPen w' ∧
      Shows id w' (t.wipe (plain 0x20)) := by
  obtain ⟨w₁, hw₁, hpen₁, h₁⟩ :=
    h.writeByte_back (h.cursorClear_of_blank hpen.bg (hblank _ le_rfl)) hpen.escape
  have hp₁ := hpen.congr hpen₁
  obtain ⟨w₂, hw₂, hpen₂, h₂⟩ := h₁.writeByte_print (a := plain 0x20) 0x20
    (.inl Terminal.col_back_lt) hp₁.escape (by decide) (by rw [hp₁.fg, hp₁.bg]; rfl)
  have hp₂ := hp₁.congr hpen₂
  -- the cell after the space was blank before
  have hidx : (t.back.put (plain 0x20)).index = t.back.index + 1 :=
    Terminal.index_put (Terminal.index_lt Terminal.col_back_lt)
  have hafter : t.index ≤ t.back.index + 1 := by
    rw [Terminal.index, Terminal.index, Terminal.back]
    dsimp only
    omega
  have hclear : Blank ((t.back.put (plain 0x20)).cellAt (t.back.put (plain 0x20)).index) := by
    rw [hidx, Terminal.cellAt_put (Terminal.index_lt Terminal.col_back_lt),
      if_neg (Nat.succ_ne_self _)]
    exact hblank _ hafter
  obtain ⟨w₃, hw₃, hpen₃, h₃⟩ :=
    h₂.writeByte_back (h₂.cursorClear_of_blank hp₂.bg hclear) hp₂.escape
  refine ⟨w₃, ?_, hp₂.congr hpen₃, h₃⟩
  rw [writeString, List.foldlM_cons, show sent 0x08 = 0x08 from rfl, hw₁]
  show (w₁.writeByte 0x20 >>= _) = _
  rw [hw₂]
  exact (bind_pure _).trans hw₃

end FrameBufferWriter

end Framebuffer

/-! ## The screen and the line -/

/-- **The screen shows the line** from the cell numbered `i` on: its characters, then blank cells
but for the bar of the cursor, and the cursor right after the line or waiting behind the full row.
-/
structure Agrees (s : Console) (i : ℕ) : Prop where
  chars : ∀ k byte, s.shell.line[k]? = some byte →
    ∀ dy < s.screen.cellHeight, ∀ dx < s.screen.cellWidth,
      s.screen.readPixel (s.screen.cellPlace (i + k) dy dx).1 (s.screen.cellPlace (i + k) dy dx).2 =
        some ((plain byte).color (dy / s.screen.scaleFactor) (dx / s.screen.scaleFactor))
  blank : ∀ j, i + s.shell.pos ≤ j → j < s.screen.textRows * s.screen.textCols →
    ∀ dy < s.screen.cellHeight, ∀ dx < s.screen.cellWidth,
      s.screen.cellPlace j dy dx ∉ s.screen.bar →
      s.screen.readPixel (s.screen.cellPlace j dy dx).1 (s.screen.cellPlace j dy dx).2 =
        some (0, 0, 0)
  cursor : s.screen.cursorPosition = s.screen.cellPlace (i + s.shell.pos) 0 0 ∨
    s.screen.cursorPosition.1 = s.screen.textCols * s.screen.cellWidth ∧
      (0, s.screen.cursorPosition.2 + s.screen.cellHeight) =
        s.screen.cellPlace (i + s.shell.pos) 0 0

/-- The terminal on the screen has the line from the cell numbered `i` on. -/
structure Line (s : Console) (i : ℕ) (t : Terminal rows cols Ink) : Prop where
  shows : Shows id s.screen t
  pen : PlainPen s.screen
  index_eq : t.index = i + s.shell.pos
  chars : ∀ k byte, s.shell.line[k]? = some byte → t.cellAt (i + k) = some (plain byte)
  blank : ∀ j, t.index ≤ j → Blank (t.cellAt j)

/-- A Backspace that has something to delete, with the cursor in column 0. -/
def WipesAtColumnZero (s : Console) (key : DecodedKey) : Prop :=
  key.isBackspace = true ∧ 0 < s.shell.pos ∧ s.screen.xPos = 0

/-- How long the line is after some keys. -/
def lineLength (keys : List DecodedKey) : ℕ :=
  keys.foldl (fun n key => if key.isBackspace then n - 1 else min 256 (n + 1)) 0

theorem lineLength_append_singleton (keys : List DecodedKey) (key : DecodedKey) :
    lineLength (keys ++ [key]) =
      if key.isBackspace then lineLength keys - 1 else min 256 (lineLength keys + 1) := by
  rw [lineLength, List.foldl_append]
  rfl

namespace Shell

variable {sh : Shell} {k : ℕ} {byte : UInt8}

theorem getElem_line : sh.line[k]? = if k < sh.pos then sh.buf.toList[k]? else none :=
  List.getElem?_take

theorem lt_pos_of_line (h : sh.line[k]? = some byte) : k < sh.pos := by
  by_contra hk
  rw [getElem_line, if_neg hk] at h
  cases h

end Shell

namespace Line

/-- **A line on the terminal is a line on the screen.** -/
theorem agrees (h : Line s i t) : Agrees s i := by
  have hcols : s.screen.textCols = cols := h.shows.layout.cols_eq
  have hrows : s.screen.textRows = rows := h.shows.layout.rows_eq
  have hcell : ∀ j < rows * cols, j / cols < rows ∧ j % cols < cols := fun j hj =>
    ⟨(Nat.div_lt_iff_lt_mul t.cols_pos).mpr hj, Nat.mod_lt j t.cols_pos⟩
  have hidx : ∀ j, t.row = j / cols ∧ t.col = j % cols → t.index = j := by
    intro j hj
    rw [Terminal.index, hj.1, hj.2, Grid.div_mul_add_mod]
  refine ⟨fun k byte hk dy hdy dx hdx => ?_, fun j hj hlt dy hdy dx hdx hbar => ?_, ?_⟩
  · have hlt : i + k < t.index := by
      have := Shell.lt_pos_of_line hk
      rw [h.index_eq]
      omega
    have hj := hcell (i + k) (hlt.trans_le t.index_le)
    rw [cellPlace, hcols, h.shows.readPixel_cell hj.1 hj.2 hdy hdx
      fun hb => hlt.ne' (hidx _ ⟨hb.1, hb.2.1⟩), ← Terminal.cellAt, h.chars k byte hk]
    rfl
  · rw [hrows, hcols] at hlt
    have hj' := hcell j hlt
    rw [cellPlace, hcols] at hbar ⊢
    rw [h.shows.readPixel_cell hj'.1 hj'.2 hdy hdx fun hb => hbar hb.2.2, ← Terminal.cellAt,
      h.blank j (h.index_eq.le.trans hj)]
    rw [Nat.div_lt_iff_lt_mul h.shows.layout.scale_pos]
    exact hdy
  · have hplace : s.screen.cellPlace (i + s.shell.pos) 0 0 =
        (t.index % cols * s.screen.cellWidth, t.index / cols * s.screen.cellHeight) := by
      rw [cellPlace, hcols, h.index_eq]
      rfl
    rw [hplace, hcols, cursorPosition, h.shows.x_eq, h.shows.y_eq]
    by_cases hcol : t.col < cols
    · left
      rw [Terminal.index, Grid.div hcol, Grid.mod hcol]
    · right
      have hfull : t.col = cols := le_antisymm t.col_le (not_lt.mp hcol)
      have hindex : t.index = (t.row + 1) * cols := by
        rw [Terminal.index, hfull, Nat.add_mul, Nat.one_mul]
      rw [hindex, Nat.mul_mod_left, Nat.mul_div_cancel _ t.cols_pos, hfull,
        Nat.add_mul, Nat.one_mul, Nat.zero_mul]
      exact ⟨rfl, rfl⟩

/-- **A printable key**, with a cell left for it. -/
theorem push (h : Line s i t) (hc : 0x20 ≤ c.toUInt8 ∧ c.toUInt8 ≤ 0x7e)
    (hroom : i + min 256 (s.shell.pos + 1) ≤ rows * cols) :
    ∃ s', s.push c = some s' ∧ s'.shell.pos = min 256 (s.shell.pos + 1) ∧
      ∃ t' : Terminal rows cols Ink, Line s' i t' := by
  rw [Console.push]
  split_ifs with hpos
  · have hlt : t.index < rows * cols := by
      rw [h.index_eq]
      omega
    have hne : c.toUInt8 ≠ 0x1b ∧ c.toUInt8 ≠ 0x0a ∧ c.toUInt8 ≠ 0x08 := by
      refine ⟨?_, ?_, ?_⟩ <;> intro heq <;> rw [heq] at hc <;> exact absurd hc.1 (by decide)
    obtain ⟨w', hw', hpen, hshows⟩ := h.shows.writeByte_print (a := plain c.toUInt8) c.toUInt8
      (Terminal.col_lt_or_two_le hlt) h.pen.escape hne (by rw [h.pen.fg, h.pen.bg]; rfl)
    have hprint : s.screen.writeString [c.toUInt8] = some w' := by
      rw [writeString, List.foldlM_cons, sent, if_pos (.inl hc), hw']
      rfl
    refine ⟨_, congrArg (Option.bind · _) hprint, (Nat.min_eq_right hpos).symm, _, hshows,
      h.pen.congr hpen, ?_, fun k byte hk => ?_, fun j hj => ?_⟩
    · rw [Terminal.index_put hlt, h.index_eq, Nat.add_assoc]
    · rw [Terminal.cellAt_put hlt, h.index_eq]
      rw [Shell.getElem_line] at hk
      dsimp only at hk
      rw [Vector.toList_set, List.getElem?_set] at hk
      split_ifs at hk with hk1 hk2 hk3
      · rw [if_pos (by omega), Option.some.inj hk]
      · rw [if_neg (by omega)]
        refine h.chars k byte ?_
        rw [Shell.getElem_line, if_pos (by omega)]
        exact hk
    · rw [Terminal.index_put hlt] at hj
      rw [Terminal.cellAt_put hlt, if_neg (by omega)]
      exact h.blank j (by omega)
  · have := s.shell.pos_le
    exact ⟨s, rfl, by omega, t, h⟩

/-- What a Backspace does to the shell, and to the terminal. -/
theorem backspace_eq (h : Line s i t) (hpos : 0 < s.shell.pos) :
    ∃ s', s.backspace = some s' ∧ s'.shell.pos = s.shell.pos - 1 ∧
      s'.shell.buf = s.shell.buf ∧ PlainPen s'.screen ∧
        Shows id s'.screen (t.wipe (plain 0x20)) := by
  obtain ⟨w', hw', hpen, hshows⟩ := h.shows.writeString_wipe h.pen h.blank
  rw [Console.backspace, if_pos hpos]
  exact ⟨_, congrArg (Option.bind · _) hw', rfl, rfl, hpen, hshows⟩

/-- **A Backspace** elsewhere than in column 0. -/
theorem backspace (h : Line s i t) (hedge : ¬ (0 < s.shell.pos ∧ s.screen.xPos = 0)) :
    ∃ s', s.backspace = some s' ∧ s'.shell.pos = s.shell.pos - 1 ∧
      ∃ t' : Terminal rows cols Ink, Line s' i t' := by
  by_cases hpos : 0 < s.shell.pos
  · obtain ⟨s', hs', hpos', hbuf, hpen, hshows⟩ := h.backspace_eq hpos
    have hcol : 0 < t.col := by
      rw [Nat.pos_iff_ne_zero]
      intro hzero
      exact hedge ⟨hpos, by rw [h.shows.x_eq, hzero, Nat.zero_mul]⟩
    have hback := Terminal.index_back hcol
    have hindex := h.index_eq
    refine ⟨s', hs', hpos', _, hshows, hpen, ?_, fun k byte hk => ?_, fun j hj => ?_⟩
    · rw [Terminal.index_wipe]
      omega
    · have hk' := Shell.lt_pos_of_line hk
      rw [Terminal.cellAt_wipe, if_neg (by omega)]
      refine h.chars k byte ?_
      rw [Shell.getElem_line, if_pos hk', hbuf] at hk
      rwa [Shell.getElem_line, if_pos (by omega)]
    · rw [Terminal.index_wipe] at hj
      rw [Terminal.cellAt_wipe]
      split_ifs with hj'
      · exact blank_space
      · exact h.blank j (by omega)
  · rw [Console.backspace, if_neg hpos]
    exact ⟨s, rfl, by omega, t, h⟩

/-- **A Backspace in column 0** leaves the cursor where it was, a cell too far. -/
theorem not_agrees_backspace (h : Line s i t) (hpos : 0 < s.shell.pos) (hx : s.screen.xPos = 0) :
    ∃ s', s.backspace = some s' ∧ ¬ Agrees s' i := by
  obtain ⟨s', hs', hpos', -, -, hshows⟩ := h.backspace_eq hpos
  refine ⟨s', hs', fun hagrees => ?_⟩
  have hcw := cellWidth_pos h.shows.layout.scale_pos
  have hcw' := cellWidth_pos hshows.layout.scale_pos
  have hch' := cellHeight_pos hshows.layout.scale_pos
  have hcols : s'.screen.textCols = cols := hshows.layout.cols_eq
  have hcol : t.col = 0 := by
    rw [h.shows.x_eq] at hx
    exact (Nat.mul_eq_zero.mp hx).resolve_right hcw.ne'
  have hindex : t.row * cols = i + s.shell.pos := by
    rw [← h.index_eq, Terminal.index, hcol, Nat.add_zero]
  have hx' : s'.screen.xPos = 0 := by
    rw [hshows.x_eq, Terminal.wipe_eq]
    show (t.col - 1) * _ = 0
    rw [hcol, Nat.zero_mul]
  have hy' : s'.screen.yPos = t.row * s'.screen.cellHeight := by
    rw [hshows.y_eq, Terminal.wipe_eq]
    rfl
  rcases hagrees.cursor with hcursor | ⟨hcursor, -⟩
  · -- the cell before has another number
    rw [cursorPosition, cellPlace, hcols, hx', hy', hpos'] at hcursor
    obtain ⟨hmod, hdiv⟩ := Prod.ext_iff.mp hcursor
    have hmod' : (i + (s.shell.pos - 1)) % cols = 0 :=
      (Nat.mul_eq_zero.mp hmod.symm).resolve_right hcw'.ne'
    have hdiv' : t.row = (i + (s.shell.pos - 1)) / cols := Nat.eq_of_mul_eq_mul_right hch' hdiv
    have := Grid.div_mul_add_mod (i + (s.shell.pos - 1)) cols
    rw [hmod', ← hdiv', hindex] at this
    omega
  · rw [cursorPosition, hcols, hx'] at hcursor
    exact absurd hcursor.symm (Nat.mul_pos t.cols_pos hcw').ne'

end Line

/-! ## A session -/

/-- A prompt, and keys after it. -/
def session (execute : Console → Option Console) (s : Console) (keys : List DecodedKey) :
    Option Console :=
  s.printPrompt.bind fun s => s.handleKeys execute keys

/-- **The prompt** leaves an empty line behind it. -/
theorem Framebuffer.FrameBufferWriter.Shows.line_printPrompt (h : Shows id s.screen t)
    (hstate : s.screen.escapeState = .normal) (hblank : ∀ j, t.index ≤ j → Blank (t.cellAt j))
    (hpos : s.shell.pos = 0) (hroom : t.index + 2 ≤ rows * cols) :
    ∃ s', s.printPrompt = some s' ∧ s'.shell.pos = 0 ∧
      ∃ t' : Terminal rows cols Ink, Line s' (t.index + 2) t' := by
  have hlt : t.index < rows * cols := by omega
  obtain ⟨buf₁, pos₁, hw₁⟩ := writeString_green hstate
  have h₁ : Shows id { s.screen with
      fg := (0, 170, 0), escapeState := .normal, csiBuf := buf₁, csiPos := pos₁ } t :=
    ⟨h.layout.congr rfl rfl rfl, h.x_eq, h.y_eq, h.pixels⟩
  obtain ⟨w₂, hw₂, hpen₂, h₂⟩ := h₁.writeByte_print 0x24 (Terminal.col_lt_or_two_le hlt)
    rfl (by decide) rfl
  have hindex₂ := Terminal.index_put (a := ⟨0x24, (0, 170, 0), s.screen.bg⟩) hlt
  have hlt₂ : (t.put ⟨0x24, (0, 170, 0), s.screen.bg⟩).index < rows * cols := by
    rw [hindex₂]
    omega
  obtain ⟨w₃, hw₃, hpen₃, h₃⟩ := h₂.writeByte_print 0x20
    (Terminal.col_lt_or_two_le hlt₂) hpen₂.escape (by decide) rfl
  obtain ⟨buf₄, pos₄, hw₄⟩ := writeString_reset (hpen₃.escape.trans hpen₂.escape)
  have hwrite : s.screen.writeString
      ([0x1b, 0x5b, 0x33, 0x32, 0x6d] ++ 0x24 :: 0x20 :: [0x1b, 0x5b, 0x30, 0x6d]) = some { w₃ with
        fg := (170, 170, 170), bg := (0, 0, 0), escapeState := .normal, csiBuf := buf₄,
        csiPos := pos₄ } := by
    rw [writeString_append, hw₁, Option.bind_some, writeString, List.foldlM_cons]
    show (writeByte _ 0x24 >>= _) = _
    rw [hw₂, Option.bind_eq_bind, Option.bind_some, List.foldlM_cons]
    show (w₂.writeByte 0x20 >>= _) = _
    rw [hw₃]
    exact hw₄
  refine ⟨_, congrArg (Option.bind · _) hwrite, hpos, (t.put _).put _,
    ⟨h₃.layout.congr rfl rfl rfl, h₃.x_eq, h₃.y_eq, h₃.pixels⟩, ⟨rfl, rfl, rfl⟩, ?_,
    fun k byte hk => ?_, fun j hj => ?_⟩
  · rw [Terminal.index_put hlt₂, hindex₂, hpos]
  · have := Shell.lt_pos_of_line hk
    rw [hpos] at this
    cases this
  · rw [Terminal.index_put hlt₂, hindex₂] at hj
    rw [Terminal.cellAt_put hlt₂, hindex₂, if_neg (by omega), Terminal.cellAt_put hlt,
      if_neg (by omega)]
    exact hblank j (by omega)

/-- **The edited line and the screen agree**, after every key, just when no Backspace that has
something to delete meets the cursor in column 0.  The session begins with a prompt anywhere on a
screen that is blank from the cursor on, and has room for the line at its longest. -/
theorem line_agrees_iff (s₀ : Console) (hshows : Shows id s₀.screen t)
    (hstate : s₀.screen.escapeState = .normal) (hblank : ∀ j, t.index ≤ j → Blank (t.cellAt j))
    (hpos : s₀.shell.pos = 0) (keys : List DecodedKey)
    (hkeys : ∀ key ∈ keys, key.isPrintable = true ∨ key.isBackspace = true)
    (hroom : ∀ pre, pre <+: keys → t.index + 2 + lineLength pre ≤ rows * cols) :
    (∀ pre, pre <+: keys → ∃ s, session execute s₀ pre = some s ∧ Agrees s (t.index + 2)) ↔
      ∀ pre key s, pre ++ [key] <+: keys → session execute s₀ pre = some s →
        ¬ WipesAtColumnZero s key := by
  obtain ⟨s₁, hprompt, hpos₁, hline⟩ := hshows.line_printPrompt hstate hblank hpos
    (hroom [] (List.nil_prefix))
  simp only [session, hprompt, Option.bind_some, Console.handleKeys]
  refine prefixes_iff (I := fun pre s => s.shell.pos = lineLength pre ∧
    ∃ t' : Terminal rows cols Ink, Line s (t.index + 2) t') ?_ ?_ ?_ ⟨hpos₁, hline⟩
  · rintro pre key s hpre ⟨hlen, t', h⟩ hedge
    have hroom' := hroom _ hpre
    rw [lineLength_append_singleton] at hroom' ⊢
    rcases hkeys key (hpre.subset (List.mem_append_right _ List.mem_cons_self)) with hkey | hkey
    · obtain ⟨c, hc, hpush⟩ := Console.handleKey_printable execute s hkey
      rw [if_neg (DecodedKey.not_isBackspace hkey), ← hlen] at hroom' ⊢
      rw [hpush]
      exact h.push hc hroom'
    · rw [Console.handleKey_backspace hkey, if_pos hkey, ← hlen]
      obtain ⟨s', hs', hpos', h'⟩ := h.backspace fun hb => hedge ⟨hkey, hb⟩
      exact ⟨s', hs', hpos', h'⟩
  · rintro pre s ⟨-, t', h⟩
    exact h.agrees
  · rintro pre key s s' ⟨-, t', h⟩ ⟨hkey, hpos, hx⟩ hs'
    obtain ⟨s'', hs'', hagrees⟩ := h.not_agrees_backspace hpos hx
    rw [Console.handleKey_backspace hkey] at hs'
    obtain rfl : s'' = s' := Option.some.inj (hs''.symm.trans hs')
    exact hagrees

/-- A new shell on a screen of three rows and four columns. -/
def smallConsole : Console := ⟨Shell.new, fresh (fun _ => 0) 4608 ⟨32, 48, .rgb, 3, 32⟩ 1⟩

/-- Three letters, the last one on the second row, and two Backspaces. -/
def wrappedKeys : List DecodedKey :=
  [.unicode 'a', .unicode 'b', .unicode 'c', .unicode '\x08', .rawKey .backspace]

theorem line_agrees_iff_small :
    (∀ pre, pre <+: wrappedKeys → ∃ s, session some smallConsole pre = some s ∧ Agrees s 2) ↔
      ∀ pre key s, pre ++ [key] <+: wrappedKeys → session some smallConsole pre = some s →
        ¬ WipesAtColumnZero s key := by
  obtain ⟨-, -, hshows, hpen⟩ := shows_fresh (s := 1) id
    (show Geometry (new (fun _ => 0) 4608 ⟨32, 48, .rgb, 3, 32⟩) from
      ⟨by decide, by decide, show 48 * 32 * 3 ≤ 4608 by norm_num⟩)
    (by decide) (by decide) (by decide) (by decide)
  refine line_agrees_iff smallConsole hshows hpen.escape (fun _ _ _ _ _ => rfl) rfl
    wrappedKeys (by decide) fun pre hpre => ?_
  have hall : ∀ pre ∈ wrappedKeys.inits, 0 + 2 + lineLength pre ≤ 3 * 4 := by decide
  exact hall pre ((List.mem_inits _ _).mpr hpre)

/-- After the second Backspace the line is `a`, but `b` is still on the screen and the cursor has
not moved. -/
theorem backspace_stuck_in_column_zero :
    ∃ s, session some smallConsole wrappedKeys = some s ∧ s.shell.line = [0x61] ∧
      s.screen.cursorPosition = (0, 16) ∧ s.screen.readPixel 25 5 = some (170, 170, 170) ∧
        ¬ Agrees s 2 := by
  have hrun : ((session some smallConsole wrappedKeys).any fun (s : Console) =>
      s.shell.line == [0x61] && s.screen.cursorPosition == (0, 16) &&
        s.screen.readPixel 25 5 == some (170, 170, 170) &&
          s.screen.cellPlace (2 + s.shell.pos) 0 0 == (24, 0) &&
            s.screen.textCols * s.screen.cellWidth == 32) = true := by decide +kernel
  simp only [Option.any_eq_true, Bool.and_eq_true, beq_iff_eq] at hrun
  obtain ⟨s, hs, ⟨⟨⟨hline, hcursor⟩, hpixel⟩, hplace⟩, hwidth⟩ := hrun
  refine ⟨s, hs, hline, hcursor, hpixel, fun h => ?_⟩
  rcases h.cursor with hc | ⟨hc, -⟩
  · rw [hcursor, hplace] at hc
    exact absurd hc (by decide)
  · rw [hcursor, hwidth] at hc
    exact absurd hc (by decide)

end YontiOs
