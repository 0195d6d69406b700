import YontiOs.Framebuffer.Cursor
import YontiOs.Machinery.Filled

/-!
# Framebuffer/Escape — color sequences

`ESC [ p m` collects the bytes of `p` and hands them to `apply_sgr`: as long as they fit the buffer
for them, a sequence changes colors and nothing that is seen (`writeString_sgr`).  A ninth byte ends
the sequence, and the rest of it is printed (`sgr_unseen_iff`).  What a sequence changes is a `Pen`,
on the machine as well (`machine_sgrs`).
-/

namespace YontiOs.Framebuffer.FrameBufferWriter

variable {w : FrameBufferWriter} {p q : List UInt8} {byte : UInt8}

theorem writeString_append : w.writeString (p ++ q) =
    (w.writeString p).bind fun w => w.writeString q := List.foldlM_append

/-- Parameters are sent as they are. -/
theorem sent_of_isParam (h : isParam byte = true) : sent byte = byte := by
  rw [sent, if_pos]
  simp only [isParam, isDigit, Bool.or_eq_true, Bool.and_eq_true, decide_eq_true_eq, beq_iff_eq]
    at h
  left
  rcases h with h | rfl
  · exact ⟨UInt8.le_trans (show (0x20 : UInt8) ≤ 0x30 by decide) h.1,
      UInt8.le_trans h.2 (show (0x39 : UInt8) ≤ 0x7e by decide)⟩
  · decide

/-- **Parameters are collected** while there is room. -/
theorem writeString_params (hstate : w.escapeState = .inCsi) (hp : ∀ byte ∈ p, isParam byte = true)
    (hlen : w.csiPos + p.length ≤ 8) :
    ∃ buf, w.writeString p = some { w with csiBuf := buf, csiPos := w.csiPos + p.length } ∧
      buf.toList.take (w.csiPos + p.length) = w.csiBuf.toList.take w.csiPos ++ p := by
  induction p generalizing w with
  | nil => exact ⟨w.csiBuf, rfl, (List.append_nil _).symm⟩
  | cons byte p ih =>
    have hbyte := hp byte List.mem_cons_self
    rw [List.length_cons] at hlen
    have hroom : w.csiPos < 8 := by omega
    obtain ⟨buf, hbuf, htake⟩ := ih
      (w := { w with csiBuf := w.csiBuf.set w.csiPos byte hroom, csiPos := w.csiPos + 1 }) hstate
      (fun b hb => hp b (List.mem_cons_of_mem _ hb)) (by dsimp only; omega)
    dsimp only at hbuf htake
    rw [vector_take_set hroom, List.append_assoc, List.singleton_append] at htake
    rw [List.length_cons, Nat.add_comm p.length, ← Nat.add_assoc]
    have hfirst : w.writeByte byte =
        some { w with csiBuf := w.csiBuf.set w.csiPos byte hroom, csiPos := w.csiPos + 1 } := by
      rw [writeByte, hstate]
      exact dif_pos ⟨hbyte, hroom⟩
    refine ⟨buf, ?_, htake⟩
    rw [writeString, List.foldlM_cons, sent_of_isParam hbyte, hfirst]
    exact hbuf

/-- The final byte applies what was collected. -/
theorem writeByte_final (hstate : w.escapeState = .inCsi) (hpos : w.csiPos ≤ 8)
    (htake : w.csiBuf.toList.take w.csiPos = p) : w.writeByte 0x6d =
      some (selectColors { w with escapeState := .normal }
        ((parseU32 (p.takeWhile (· ≠ 0x3b))).getD 0)) := by
  rw [writeByte, hstate]
  dsimp only
  rw [dif_neg fun h => absurd h.1 (by decide), if_pos rfl, applySgr, if_pos hpos, htake]
  refine congrArg some ?_
  rw [selectColors, selectColors]
  split_ifs <;> rfl

/-- `ESC [` begins a control sequence. -/
theorem writeString_csi (hstate : w.escapeState = .normal) :
    w.writeString (0x1b :: 0x5b :: p) = writeString { w with escapeState := .sawBracket } p := by
  have hesc : w.writeByte (sent 0x1b) = some { w with escapeState := .sawEsc } := by
    rw [writeByte, hstate]
    rfl
  rw [writeString, List.foldlM_cons, hesc]
  rfl

/-- **The parameters of a color sequence** are collected. -/
theorem writeString_collect (hstate : w.escapeState = .normal)
    (hp : ∀ byte ∈ p, isParam byte = true) (hne : p ≠ []) (hlen : p.length ≤ 8) :
    ∃ buf, w.writeString (0x1b :: 0x5b :: p) =
        some { w with escapeState := .inCsi, csiBuf := buf, csiPos := p.length } ∧
      buf.toList.take p.length = p := by
  obtain ⟨byte, p, rfl⟩ := List.exists_cons_of_ne_nil hne
  have hbyte := hp byte List.mem_cons_self
  rw [List.length_cons] at hlen
  obtain ⟨buf, hbuf, htake⟩ := writeString_params
    (w := { w with escapeState := .inCsi, csiBuf := w.csiBuf.set 0 byte, csiPos := 1 }) rfl
    (fun b hb => hp b (List.mem_cons_of_mem _ hb)) (by dsimp only; omega)
  dsimp only at hbuf htake
  rw [vector_take_set (show 0 < 8 by decide), List.take_zero, List.nil_append, Nat.add_comm]
    at htake
  rw [Nat.add_comm] at hbuf
  refine ⟨buf, ?_, htake⟩
  have hfirst : writeByte { w with escapeState := .sawBracket } (sent byte) =
      some { w with escapeState := .inCsi, csiBuf := w.csiBuf.set 0 byte, csiPos := 1 } := by
    rw [sent_of_isParam hbyte, writeByte]
    exact if_pos hbyte
  rw [writeString_csi hstate, writeString, List.foldlM_cons, hfirst]
  exact hbuf

/-- **A color sequence** is collected and applied. -/
theorem writeString_sgr (hstate : w.escapeState = .normal) (hp : ∀ byte ∈ p, isParam byte = true)
    (hne : p ≠ []) (hlen : p.length ≤ 8) :
    ∃ buf pos, w.writeString (0x1b :: 0x5b :: (p ++ [0x6d])) =
      some (selectColors { w with escapeState := .normal, csiBuf := buf, csiPos := pos }
        ((parseU32 (p.takeWhile (· ≠ 0x3b))).getD 0)) := by
  obtain ⟨buf, hbuf, htake⟩ := writeString_collect hstate hp hne hlen
  refine ⟨buf, p.length, ?_⟩
  rw [← List.cons_append, ← List.cons_append, writeString_append, hbuf]
  exact (bind_pure _).trans (writeByte_final rfl hlen htake)

/-- `ESC [32m`. -/
theorem writeString_green (hstate : w.escapeState = .normal) : ∃ buf pos,
    w.writeString [0x1b, 0x5b, 0x33, 0x32, 0x6d] = some { w with
      fg := (0, 170, 0), escapeState := .normal, csiBuf := buf, csiPos := pos } :=
  writeString_sgr (p := [0x33, 0x32]) hstate (List.all_eq_true.mp rfl) (List.cons_ne_nil _ _)
    (by decide)

/-- `ESC [0m`. -/
theorem writeString_reset (hstate : w.escapeState = .normal) : ∃ buf pos,
    w.writeString [0x1b, 0x5b, 0x30, 0x6d] = some { w with
      fg := (170, 170, 170), bg := (0, 0, 0), escapeState := .normal, csiBuf := buf,
      csiPos := pos } :=
  writeString_sgr (p := [0x30]) hstate (List.all_eq_true.mp rfl) (List.cons_ne_nil _ _) (by decide)

/-! ## What is seen of a sequence -/

/-- Without parameters nothing is applied. -/
theorem writeString_sgr_nil (hstate : w.escapeState = .normal) :
    w.writeString [0x1b, 0x5b, 0x6d] = some { w with escapeState := .normal } := by
  rw [writeString_csi hstate]
  rfl

/-- **Up to eight parameter bytes** a sequence changes colors only. -/
theorem writeString_sgr_short (hstate : w.escapeState = .normal)
    (hp : ∀ byte ∈ p, isParam byte = true) (hlen : p.length ≤ 8) :
    ∃ fg bg buf pos, w.writeString (0x1b :: 0x5b :: (p ++ [0x6d])) = some { w with
      fg := fg, bg := bg, escapeState := .normal, csiBuf := buf, csiPos := pos } := by
  by_cases hne : p = []
  · subst hne
    exact ⟨w.fg, w.bg, w.csiBuf, w.csiPos, writeString_sgr_nil hstate⟩
  · obtain ⟨buf, pos, hsgr⟩ := writeString_sgr hstate hp hne hlen
    obtain ⟨fg, bg, hcolors⟩ := selectColors_frame
      { w with escapeState := .normal, csiBuf := buf, csiPos := pos }
      ((parseU32 (p.takeWhile (· ≠ 0x3b))).getD 0)
    exact ⟨fg, bg, buf, pos, hsgr.trans (congrArg some hcolors)⟩

/-- **A ninth parameter byte ends the sequence**, and what follows it is text. -/
theorem writeString_sgr_long (hstate : w.escapeState = .normal)
    (hp : ∀ byte ∈ p, isParam byte = true) (hlen : 8 < p.length) :
    ∃ buf, w.writeString (0x1b :: 0x5b :: (p ++ [0x6d])) =
      writeString { w with escapeState := .normal, csiBuf := buf, csiPos := 8 }
        (p.drop 9 ++ [0x6d]) := by
  obtain ⟨q, byte, r, rfl, hq⟩ : ∃ q byte r, p = q ++ byte :: r ∧ q.length = 8 := by
    refine ⟨p.take 8, p.get ⟨8, hlen⟩, p.drop 9, ?_, List.length_take_of_le hlen.le⟩
    rw [List.get_eq_getElem, List.getElem_cons_drop, List.take_append_drop]
  obtain ⟨buf, hbuf, -⟩ := writeString_collect hstate
    (fun b hb => hp b (List.mem_append_left _ hb)) (List.ne_nil_of_length_pos (by omega)) hq.le
  have hbyte := hp byte (List.mem_append_right _ List.mem_cons_self)
  have hninth : writeByte { w with escapeState := .inCsi, csiBuf := buf, csiPos := 8 } (sent byte) =
      some { w with escapeState := .normal, csiBuf := buf, csiPos := 8 } := by
    rw [sent_of_isParam hbyte, writeByte]
    dsimp only
    rw [dif_neg (by simp), if_neg]
    rintro rfl
    exact absurd hbyte (by decide)
  have hdrop : (q ++ byte :: r).drop 9 = r := by
    rw [List.drop_append, List.drop_eq_nil_of_le (by omega), hq]
    rfl
  refine ⟨buf, ?_⟩
  rw [hdrop, List.append_assoc, ← List.cons_append, ← List.cons_append, writeString_append, hbuf,
    hq, List.cons_append, Option.bind_some, writeString, List.foldlM_cons, hninth]
  rfl

/-- Text ends with the cursor drawn. -/
theorem Inv.writeString_text (h : w.Inv) (hstate : w.escapeState = .normal)
    (hp : ∀ byte ∈ p, isParam byte = true) {w' : FrameBufferWriter}
    (hw' : w.writeString (p ++ [0x6d]) = some w') : w'.cursorShown = true := by
  induction p generalizing w with
  | nil =>
    obtain ⟨buf, x, y, hglyph, -, -⟩ := h.writeGlyph_gives 0x6d
    have hfinal : w.writeByte 0x6d = w.writeGlyph 0x6d := by
      rw [writeByte, hstate]
      rfl
    rw [List.nil_append, writeString, List.foldlM_cons, show sent 0x6d = 0x6d from rfl, hfinal,
      hglyph] at hw'
    rw [← Option.some.inj hw']
  | cons byte p ih =>
    have hbyte := hp byte List.mem_cons_self
    obtain ⟨buf, x, y, hglyph, hplaced, -⟩ := h.writeGlyph_gives byte
    have hfirst : w.writeByte byte = w.writeGlyph byte := by
      have hne : byte ≠ 0x1b ∧ byte ≠ 0x0a ∧ byte ≠ 0x08 :=
        ⟨fun h => absurd (h ▸ hbyte) (by decide), fun h => absurd (h ▸ hbyte) (by decide),
          fun h => absurd (h ▸ hbyte) (by decide)⟩
      rw [writeByte, hstate]
      dsimp only
      rw [if_neg hne.1, if_neg hne.2.1, if_neg hne.2.2]
    rw [List.cons_append, writeString, List.foldlM_cons, sent_of_isParam hbyte, hfirst, hglyph]
      at hw'
    exact ih (h.moved hplaced) hstate (fun b hb => hp b (List.mem_cons_of_mem _ hb)) hw'

/-- **Color sequences are not rendered, up to eight parameter bytes**: then, and only then, writing
one in any state changes colors and what is kept of the sequence, and nothing else.  Of a longer
one, in every state, the bytes after the ninth are written as text. -/
theorem sgr_unseen_iff (hp : ∀ byte ∈ p, isParam byte = true) :
    ((∀ w : FrameBufferWriter, w.escapeState = .normal → ∃ fg bg buf pos,
        w.writeString (0x1b :: 0x5b :: (p ++ [0x6d])) = some { w with
          fg := fg, bg := bg, escapeState := .normal, csiBuf := buf, csiPos := pos }) ↔
      p.length ≤ 8) ∧
    (8 < p.length → ∀ w : FrameBufferWriter, w.escapeState = .normal → ∃ buf,
      w.writeString (0x1b :: 0x5b :: (p ++ [0x6d])) =
        writeString { w with escapeState := .normal, csiBuf := buf, csiPos := 8 }
          (p.drop 9 ++ [0x6d])) := by
  refine ⟨⟨fun hall => ?_, fun hlen w hstate => ?_⟩, fun hlen w hstate =>
    writeString_sgr_long hstate hp hlen⟩
  · -- where the cursor is not drawn, the rest of a longer sequence draws it
    by_contra hlen
    obtain ⟨w, hinv, hstate, hhidden⟩ : ∃ w : FrameBufferWriter,
        w.Inv ∧ w.escapeState = .normal ∧ w.cursorShown = false :=
      ⟨new (fun _ => 0) 0 ⟨0, 0, .rgb, 0, 0⟩, inv_new _ le_rfl, rfl, rfl⟩
    obtain ⟨fg, bg, buf, pos, hsame⟩ := hall w hstate
    obtain ⟨buf', hrest⟩ := writeString_sgr_long hstate hp (not_le.mp hlen)
    have hshown := Inv.writeString_text (hinv.escaped le_rfl fun _ => by decide) rfl
      (fun b hb => hp b (List.mem_of_mem_drop hb)) (hrest.symm.trans hsame)
    exact Bool.false_ne_true (hhidden.symm.trans hshown)
  · exact writeString_sgr_short hstate hp hlen

/-- `ESC [31m` on a new writer. -/
theorem sgr_unseen_iff_red : ∃ fg bg buf pos, (new (fun _ => 0) 1152 pairInfo).writeString
    (0x1b :: 0x5b :: ([0x33, 0x31] ++ [0x6d])) = some { new (fun _ => 0) 1152 pairInfo with
      fg := fg, bg := bg, escapeState := .normal, csiBuf := buf, csiPos := pos } :=
  (sgr_unseen_iff (List.all_eq_true.mp rfl)).1.mpr (by decide) _ rfl

/-- **A color sequence that is rendered**: of nine digits and the final byte, the final byte is
printed. -/
theorem sgr_seen : ((new (fun _ => 0) 1152 pairInfo).xPos = 0 ∧
      (new (fun _ => 0) 1152 pairInfo).readPixel 1 6 = some (0, 0, 0)) ∧
    ∃ w, (new (fun _ => 0) 1152 pairInfo).writeString
        (0x1b :: 0x5b :: (List.replicate 9 0x31 ++ [0x6d])) = some w ∧
      w.xPos = 8 ∧ w.readPixel 1 6 = some (170, 170, 170) := by
  have hgo : (((new (fun _ => 0) 1152 pairInfo).writeString
      (0x1b :: 0x5b :: (List.replicate 9 0x31 ++ [0x6d]))).any fun w =>
        w.xPos == 8 && w.readPixel 1 6 == some (170, 170, 170)) = true := by
    decide +kernel
  simp only [Option.any_eq_true, Bool.and_eq_true, beq_iff_eq] at hgo
  exact ⟨⟨rfl, by decide +kernel⟩, hgo⟩

/-! ## Sequences on the machine -/

/-- What color sequences change of a writer. -/
structure Pen where
  fg : Color
  bg : Color
  escapeState : EscapeState
  csiBuf : Vector UInt8 8
  csiPos : ℕ

def Pen.apply (p : Pen) (w : FrameBufferWriter) : FrameBufferWriter :=
  { w with
    fg := p.fg
    bg := p.bg
    escapeState := p.escapeState
    csiBuf := p.csiBuf
    csiPos := p.csiPos }

/-- The pen of a writer. -/
def pen (w : FrameBufferWriter) : Pen := ⟨w.fg, w.bg, w.escapeState, w.csiBuf, w.csiPos⟩

/-- **A byte that is not rendered** is handled without a sum or a product that does not fit. -/
theorem machine_writeByte (hcell : w.cellWidth < 2 ^ 64) (hpos : w.csiPos ≤ 8)
    (hbyte : w.escapeState = .normal → byte = 0x1b) :
    ∃ pen : Pen, pen.csiPos ≤ 8 ∧ w.writeByte byte = some (pen.apply w) ∧
      Machine.writeByte w byte = .ok (pen.apply w) := by
  by_cases hstate : w.escapeState = .normal
  · obtain rfl := hbyte hstate
    refine ⟨⟨w.fg, w.bg, .sawEsc, w.csiBuf, w.csiPos⟩, hpos, ?_, ?_⟩
    · rw [writeByte, hstate]
      rfl
    · have hwidth : Machine.cellWidth w = .ok w.cellWidth := if_pos hcell
      rw [Machine.writeByte, hstate]
      dsimp only
      rw [hwidth]
      rfl
  · obtain ⟨fg, bg, state, buf, pos, ⟨hle, -⟩, hwrite, hgives⟩ :=
      escape_gives (g := True) hstate hpos byte
    exact ⟨⟨fg, bg, state, buf, pos⟩, hle, hwrite, hgives.eq_ok trivial⟩

/-- **A string that is not rendered**: only `ESC` comes to a writer that is not in a sequence. -/
theorem machine_writeString {s : List UInt8} (hcell : w.cellWidth < 2 ^ 64) (hpos : w.csiPos ≤ 8)
    (hquiet : ∀ s₁ byte s₂ u, s = s₁ ++ byte :: s₂ → w.writeString s₁ = some u →
      u.escapeState = .normal → sent byte = 0x1b) :
    ∃ pen : Pen, pen.csiPos ≤ 8 ∧ w.writeString s = some (pen.apply w) ∧
      Machine.writeString w s = .ok (pen.apply w) := by
  induction s generalizing w with
  | nil => exact ⟨w.pen, hpos, rfl, rfl⟩
  | cons byte s ih =>
    obtain ⟨pen, hle, hwrite, hmachine⟩ :=
      machine_writeByte hcell hpos (hquiet [] byte s w rfl rfl)
    obtain ⟨pen', hle', hrest, hmachine'⟩ := ih (w := pen.apply w) hcell hle
      fun s₁ b s₂ u heq hu => hquiet (byte :: s₁) b s₂ u (congrArg _ heq) (by
        rw [writeString, List.foldlM_cons, hwrite]
        exact hu)
    refine ⟨pen', hle', ?_, ?_⟩
    · rw [writeString, List.foldlM_cons, hwrite]
      exact hrest
    · rw [Machine.writeString, List.foldlM_cons, hmachine]
      exact hmachine'

/-- A color sequence with the parameters `p`. -/
def sgr (p : List UInt8) : List UInt8 := 0x1b :: 0x5b :: (p ++ [0x6d])

/-- Inside a color sequence the writer is in a sequence. -/
theorem sgr_quiet (hstate : w.escapeState = .normal) (hp : ∀ byte ∈ p, isParam byte = true)
    (hlen : p.length ≤ 8) {s₁ s₂ : List UInt8} {u : FrameBufferWriter}
    (heq : sgr p = s₁ ++ byte :: s₂) (hu : w.writeString s₁ = some u)
    (hnormal : u.escapeState = .normal) : sent byte = 0x1b := by
  rcases s₁ with _ | ⟨b₁, _ | ⟨b₂, s₁⟩⟩
  · obtain ⟨rfl, -⟩ := List.cons.inj heq
    rfl
  · obtain ⟨rfl, -⟩ := List.cons.inj heq
    rw [writeString, List.foldlM_cons, show sent 0x1b = 0x1b from rfl, writeByte, hstate] at hu
    obtain rfl := Option.some.inj hu
    cases hnormal
  · obtain ⟨rfl, hbracket⟩ := List.cons.inj heq
    obtain ⟨rfl, htail⟩ := List.cons.inj hbracket
    have htail : p ++ [0x6d] = s₁ ++ byte :: s₂ := htail
    -- the bytes before are parameters
    have hstart : s₁ <+: p := by
      have hle : s₁.length ≤ p.length := by
        have := congrArg List.length htail
        simp only [List.length_append, List.length_cons, List.length_nil] at this
        omega
      exact List.prefix_of_prefix_length_le ⟨byte :: s₂, htail.symm⟩ ⟨[0x6d], rfl⟩ hle
    by_cases hne : s₁ = []
    · subst hne
      rw [writeString_csi hstate] at hu
      obtain rfl := Option.some.inj hu
      cases hnormal
    · obtain ⟨buf, hbuf, -⟩ := writeString_collect hstate
        (fun b hb => hp b (hstart.subset hb)) hne (hstart.length_le.trans hlen)
      obtain rfl := Option.some.inj (hbuf.symm.trans hu)
      cases hnormal

/-- **Color sequences on the machine** of up to eight parameter bytes each. -/
theorem machine_sgrs {ps : List (List UInt8)} (hcell : w.cellWidth < 2 ^ 64)
    (hpos : w.csiPos ≤ 8) (hstate : w.escapeState = .normal)
    (hps : ∀ p ∈ ps, p.length ≤ 8 ∧ ∀ byte ∈ p, isParam byte = true) :
    ∃ pen : Pen, Machine.writeString w (ps.flatMap sgr) = .ok (pen.apply w) := by
  induction ps generalizing w with
  | nil => exact ⟨w.pen, rfl⟩
  | cons p ps ih =>
    obtain ⟨hlen, hp⟩ := hps p List.mem_cons_self
    obtain ⟨pen, hle, hwrite, hmachine⟩ := machine_writeString hcell hpos
      fun s₁ byte s₂ u => sgr_quiet hstate hp hlen
    obtain ⟨fg, bg, buf, pos, hshort⟩ := writeString_sgr_short hstate hp hlen
    have hpen : (pen.apply w).escapeState = .normal := by
      rw [← Option.some.inj (hshort.symm.trans hwrite)]
    obtain ⟨pen', hrest⟩ := ih (w := pen.apply w) hcell hle hpen
      fun p hp => hps p (List.mem_cons_of_mem _ hp)
    refine ⟨pen', ?_⟩
    rw [List.flatMap_cons, Machine.writeString, List.foldlM_append, ← Machine.writeString, hmachine]
    exact hrest

end YontiOs.Framebuffer.FrameBufferWriter
