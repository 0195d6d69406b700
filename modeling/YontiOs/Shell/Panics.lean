import YontiOs.Framebuffer.Cursor
import YontiOs.Machinery.Returns
import YontiOs.Machinery.Run
import YontiOs.Shell.Commands

/-!
# Shell/Panics — the one line that stops the kernel

The shell takes any keys and any line, but for one: `alloc` with a number that is a `usize` and too
large for a layout.  `cmd_alloc` unwraps the layout, so the line panics (`dispatch_eq_none_iff`).
All other lines are executed, over a screen with the invariant of `Framebuffer/Cursor`, and leave an
empty line behind.
-/

namespace YontiOs

open Framebuffer Text

variable {s s' : Console} {env : Env} {key : DecodedKey} {cs : List Char} {c : Char}

/-- An `alloc` of more bytes than a layout of alignment 8 can have. -/
def HugeAlloc (words : List String) : Prop :=
  words.head? = some "alloc" ∧ (words.tail.head?.bind parseUsize).any (2 ^ 63 - 8 < ·) = true

instance : DecidablePred HugeAlloc := fun _ => inferInstanceAs (Decidable (_ ∧ _))

/-! ## The handlers -/

namespace Shell

/-- The number of an interrupt is a byte. -/
theorem irqLine_returns {i : ℕ} (hi : i < 16) (count : ℕ) :
    Returns True (irqLine i count) fun _ => True := by
  rw [irqLine]
  split_ifs
  · have hbyte : Word.byte (0x20 + i % 2 ^ 8) = some (UInt8.ofNat (0x20 + i % 2 ^ 8)) :=
      if_pos (by omega)
    rw [hbyte]
    exact .of_eq rfl trivial
  · exact .of_eq rfl trivial

theorem cmdMem_returns (m : MetricsSnapshot) : ∃ es, cmdMem m = some es := by
  refine Returns.returns (g := True) (P := fun _ => True) ?_ trivial
  refine (Returns.mapM (P := fun _ => True) fun p hp => ?_).bind fun _ _ => .of_eq rfl trivial
  obtain ⟨-, hlt, -⟩ := List.mem_zipIdx hp
  rw [Vector.length_toList] at hlt
  exact irqLine_returns hlt p.1

/-- **`cmd_alloc` panics on a size that no layout has.** -/
theorem cmdAlloc_eq_none_iff {alloc : Layout → Option ℕ} {arg : Option String} :
    cmdAlloc alloc arg = none ↔ (arg.bind parseUsize).any (2 ^ 63 - 8 < ·) = true := by
  rw [cmdAlloc]
  cases arg.bind parseUsize with
  | none => simp
  | some size =>
    rw [Option.any_some, decide_eq_true_eq]
    dsimp only
    split_ifs with hpos
    · have hlayout : Layout.fromSizeAlign size 8 = none ↔ 2 ^ 63 - 8 < size := by
        have hpow : Nat.isPowerOfTwo 8 := ⟨3, rfl⟩
        rw [← Option.not_isSome_iff_eq_none, Layout.fromSizeAlign_isSome_iff]
        simp only [hpow, true_and]
        omega
      rw [← hlayout, Option.bind_eq_bind, Option.bind_eq_none_iff]
      refine ⟨fun h => ?_, fun h l hl => absurd hl (by simp [h])⟩
      by_contra hsome
      obtain ⟨l, hl⟩ := Option.ne_none_iff_exists'.mp hsome
      have := h l hl
      split at this <;> cases this
    · exact iff_of_false (by simp) (by omega)

/-- All other commands return. -/
theorem dispatch_returns (env : Env) {cmd : String} (h : cmd ≠ "alloc") (parts : List String) :
    dispatch env cmd parts ≠ none := by
  obtain ⟨es, hmem⟩ := cmdMem_returns env.metrics
  unfold dispatch
  split
  all_goals first | exact absurd rfl h | simp only [hmem, ne_eq, reduceCtorEq, not_false_eq_true]

/-- **A line panics just if it is a huge `alloc`.** -/
theorem dispatch_eq_none_iff (env : Env) (words : List String) :
    dispatch env (words.head?.getD "") words.tail = none ↔ HugeAlloc words := by
  by_cases halloc : words.head? = some "alloc"
  · rw [halloc, Option.getD_some, dispatch, cmdAlloc_eq_none_iff]
    exact (and_iff_right halloc).symm
  · refine iff_of_false (dispatch_returns env (fun heq => halloc ?_) _) fun h => halloc h.1
    cases hhead : words.head? with
    | none =>
      rw [hhead] at heq
      exact absurd heq (by decide)
    | some cmd => rw [← heq, hhead, Option.getD_some]

theorem line_push (sh : Shell) (h : sh.pos < 256) (byte : UInt8) :
    line ⟨sh.buf.set sh.pos byte, sh.pos + 1, h⟩ = sh.line ++ [byte] := by
  have hlen : sh.pos < sh.buf.toList.length := by rwa [Vector.length_toList]
  simp only [line, Vector.toList_set]
  rw [List.take_add_one, List.take_set_of_le le_rfl, List.getElem?_set_self hlen]
  rfl

end Shell

namespace Console

/-! ## The screen -/

/-- Printing never panics, and leaves the shell alone. -/
theorem print_keeps (h : s.screen.Inv) (text : List UInt8) :
    ∃ s', s.print text = some s' ∧ s'.screen.Inv ∧ s'.shell = s.shell := by
  obtain ⟨w, hw, hkeep, -⟩ := h.writeString_keeps text
  exact ⟨{ s with screen := w }, by rw [print, hw]; rfl, hkeep.1, rfl⟩

theorem perform_keeps (h : s.screen.Inv) (e : Effect) :
    ∃ s', s.perform e = some s' ∧ s'.screen.Inv ∧ s'.shell = s.shell := by
  cases e with
  | print text => exact print_keeps h text
  | printPrompt => exact print_keeps h _
  | clearScreen =>
    obtain ⟨w, hw, hkeep, -⟩ := h.toSteady.clearScreen_keeps
    exact ⟨_, rfl, Option.some.inj hw ▸ hkeep.1, rfl⟩
  | log line => exact ⟨s, rfl, h, rfl⟩

theorem performs_keep (h : s.screen.Inv) (es : List Effect) :
    ∃ s', es.foldlM perform s = some s' ∧ s'.screen.Inv ∧ s'.shell = s.shell := by
  induction es generalizing s with
  | nil => exact ⟨s, rfl, h, rfl⟩
  | cons e es ih =>
    obtain ⟨s₁, hs₁, h₁, hshell₁⟩ := perform_keeps h e
    obtain ⟨s', hs', h', hshell⟩ := ih h₁
    exact ⟨s', by rw [List.foldlM_cons, hs₁]; exact hs', h', hshell.trans hshell₁⟩

/-! ## One key -/

theorem execute_eq_none (hhuge : HugeAlloc s.shell.words) : execute env s = none := by
  simp only [execute, (Shell.dispatch_eq_none_iff env _).mpr hhuge, Option.bind_eq_bind,
    Option.bind_none]

/-- Any other line is executed, and the next one is empty. -/
theorem execute_keeps (h : s.screen.Inv) (env : Env) (hhuge : ¬ HugeAlloc s.shell.words) :
    ∃ s', execute env s = some s' ∧ s'.screen.Inv ∧ s'.shell.pos = 0 := by
  obtain ⟨es, hes⟩ := Option.ne_none_iff_exists'.mp
    ((Shell.dispatch_eq_none_iff env _).not.mpr hhuge)
  obtain ⟨s', hs', h', -⟩ := performs_keep h es
  refine ⟨{ s' with shell := { Shell.new with buf := s'.shell.buf } }, ?_, h', rfl⟩
  simp only [execute, hes, hs', Option.bind_eq_bind, Option.bind_some]

/-- Enter on a huge `alloc`. -/
def Fatal (s : Console) (e : Env × DecodedKey) : Prop :=
  e.2 = .unicode '\n' ∧ HugeAlloc s.shell.words

theorem handleKey_enter (h : s.screen.Inv) (env : Env) :
    ∃ s₁ : Console, s₁.screen.Inv ∧ s₁.shell = s.shell ∧
      s.handleKey (execute env) (.unicode '\n') = (execute env s₁).bind printPrompt := by
  obtain ⟨s₁, hs₁, h₁, hshell⟩ := print_keeps h [0x0a]
  refine ⟨s₁, h₁, hshell, ?_⟩
  simp only [handleKey, hs₁, Option.bind_eq_bind, Option.bind_some, if_true]

theorem handleKey_eq_none (h : s.screen.Inv) (hhuge : HugeAlloc s.shell.words) :
    s.handleKey (execute env) (.unicode '\n') = none := by
  obtain ⟨s₁, -, hshell, heq⟩ := handleKey_enter h env
  rw [heq, execute_eq_none (hshell ▸ hhuge), Option.bind_none]

/-- A key that edits the line. -/
theorem push_keeps (h : s.screen.Inv) (c : Char) : ∃ s', s.push c = some s' ∧ s'.screen.Inv ∧
    (s.shell.pos < 256 → s'.shell.pos = s.shell.pos + 1 ∧
      s'.shell.line = s.shell.line ++ [c.toUInt8]) := by
  rw [push]
  split_ifs with hpos
  · obtain ⟨s', hs', h', hshell⟩ := print_keeps (s := { s with
      shell := ⟨s.shell.buf.set s.shell.pos c.toUInt8, s.shell.pos + 1, hpos⟩ }) h [c.toUInt8]
    refine ⟨s', hs', h', fun _ => ?_⟩
    rw [hshell]
    exact ⟨rfl, Shell.line_push s.shell hpos c.toUInt8⟩
  · exact ⟨s, rfl, h, fun hlt => absurd hlt hpos⟩

theorem backspace_keeps (h : s.screen.Inv) : ∃ s', s.backspace = some s' ∧ s'.screen.Inv := by
  rw [backspace]
  split_ifs with hpos
  · obtain ⟨s', hs', h', -⟩ := print_keeps (s := { s with shell :=
      ⟨s.shell.buf, s.shell.pos - 1, (Nat.sub_le _ _).trans s.shell.pos_le⟩ }) h [0x08, 0x20, 0x08]
    exact ⟨s', hs', h'⟩
  · exact ⟨s, rfl, h⟩

/-- All other keys do nothing. -/
theorem handleKey_other (h₁ : key ≠ .unicode '\n') (h₂ : ¬ key.isBackspace = true)
    (h₃ : ¬ key.isPrintable = true) : s.handleKey (execute env) key = some s := by
  cases key with
  | unicode c =>
    have hc₁ : c ≠ '\n' := fun h => h₁ (h ▸ rfl)
    have hc₂ : c ≠ '\x08' := fun h => h₂ (h ▸ rfl)
    have hc₃ : ¬ (isAsciiGraphic c || c == ' ') = true := h₃
    rw [handleKey, if_neg hc₁, if_neg hc₂, if_neg hc₃]
  | rawKey code =>
    cases code with
    | backspace => exact absurd rfl h₂
    | other => rfl

/-- **Every key but a fatal one is handled**, and Enter leaves an empty line. -/
theorem handleKey_keeps (h : s.screen.Inv) (hfatal : ¬ s.Fatal (env, key)) :
    ∃ s', s.handleKey (execute env) key = some s' ∧ s'.screen.Inv ∧
      (key = .unicode '\n' → s'.shell.pos = 0) := by
  by_cases henter : key = .unicode '\n'
  · subst henter
    obtain ⟨s₁, h₁, hshell, heq⟩ := handleKey_enter h env
    obtain ⟨s₂, hs₂, h₂, hpos⟩ := execute_keeps h₁ env fun hhuge =>
      hfatal ⟨rfl, hshell ▸ hhuge⟩
    obtain ⟨s₃, hs₃, h₃, hshell₃⟩ := print_keeps h₂ _
    exact ⟨s₃, by rw [heq, hs₂]; exact hs₃, h₃, fun _ => by rw [hshell₃, hpos]⟩
  · suffices hkeep : ∃ s', s.handleKey (execute env) key = some s' ∧ s'.screen.Inv by
      obtain ⟨s', hs', h'⟩ := hkeep
      exact ⟨s', hs', h', fun hkey => absurd hkey henter⟩
    by_cases hback : key.isBackspace = true
    · rw [handleKey_backspace hback]
      exact backspace_keeps h
    by_cases hprint : key.isPrintable = true
    · obtain ⟨c, -, heq⟩ := handleKey_printable (execute env) s hprint
      obtain ⟨s', hs', h', -⟩ := push_keeps h c
      exact ⟨s', heq.trans hs', h'⟩
    · exact ⟨s, handleKey_other henter hback hprint, h⟩

/-- **What a key leaves**, if it does not panic. -/
theorem handleKey_post (h : s.screen.Inv) (hs' : s.handleKey (execute env) key = some s') :
    s'.screen.Inv ∧ (key = .unicode '\n' → s'.shell.pos = 0) := by
  have hfatal : ¬ s.Fatal (env, key) := by
    rintro ⟨rfl, hhuge⟩
    rw [handleKey_eq_none h hhuge] at hs'
    cases hs'
  obtain ⟨s'', hs'', hkeep⟩ := handleKey_keeps h hfatal
  obtain rfl : s'' = s' := Option.some.inj (hs''.symm.trans hs')
  exact hkeep

/-! ## Any keys -/

theorem handleEvents_append (s : Console) (es es' : List (Env × DecodedKey)) :
    s.handleEvents (es ++ es') = (s.handleEvents es).bind (handleEvents · es') :=
  List.foldlM_append

theorem handleEvents_singleton (s : Console) (e : Env × DecodedKey) :
    s.handleEvents [e] = s.handleKey (execute e.1) e.2 :=
  bind_pure _

theorem handleEvents_inv {es : List (Env × DecodedKey)} (h : s.screen.Inv)
    (hs' : s.handleEvents es = some s') : s'.screen.Inv :=
  Returns.post (g := False) (.foldlM (I := fun _ s => s.screen.Inv) h fun _ _ _ _ _ h =>
    ⟨fun _ hs' => (handleKey_post h hs').1, False.elim⟩) s' hs'

/-- **Keys panic just if one of them is fatal.** -/
theorem handleEvents_returns_iff (h : s.screen.Inv) (events : List (Env × DecodedKey)) :
    (∃ s', s.handleEvents events = some s') ↔
      ∀ pre e s', pre ++ [e] <+: events → s.handleEvents pre = some s' → ¬ s'.Fatal e := by
  have hstep : ∀ (pre : List (Env × DecodedKey)) (e : Env × DecodedKey) (s' : Console),
      pre ++ [e] <+: events → s'.screen.Inv → ¬ s'.Fatal e →
        ∃ s'', s'.handleKey (execute e.1) e.2 = some s'' ∧ s''.screen.Inv := by
    intro pre e s' _ h' hfatal
    obtain ⟨s'', hs'', h'', -⟩ := handleKey_keeps h' hfatal
    exact ⟨s'', hs'', h''⟩
  constructor
  · rintro ⟨s₁, hs₁⟩ pre ⟨env, key⟩ s' ⟨rest, rfl⟩ hs' ⟨rfl, hhuge⟩
    rw [handleEvents_append, handleEvents_append, hs', Option.bind_some, handleEvents_singleton,
      handleKey_eq_none (handleEvents_inv h hs') hhuge] at hs₁
    cases hs₁
  · intro hno
    obtain ⟨s', hs', -⟩ := inv_of_no_bad (I := fun _ s => s.screen.Inv) hstep
      (fun pre e s' hpre hs' _ => hno pre e s' hpre hs') h List.prefix_rfl
    exact ⟨s', hs'⟩

/-! ## A line -/

/-- The keys of some characters. -/
def typed (env : Env) (cs : List Char) : List (Env × DecodedKey) :=
  cs.map fun c => (env, .unicode c)

/-- **What is typed is the line**, up to 256 characters. -/
theorem handleEvents_typed (h : s.screen.Inv) (env : Env) (hlen : s.shell.pos + cs.length ≤ 256)
    (hcs : ∀ c ∈ cs, (isAsciiGraphic c || c == ' ') = true) :
    ∃ s', s.handleEvents (typed env cs) = some s' ∧ s'.screen.Inv ∧
      s'.shell.line = s.shell.line ++ cs.map Char.toUInt8 := by
  induction cs generalizing s with
  | nil => exact ⟨s, rfl, h, by simp⟩
  | cons c cs ih =>
    rw [List.length_cons] at hlen
    obtain ⟨hc, hcs⟩ := List.forall_mem_cons.mp hcs
    obtain ⟨s₁, hs₁, h₁, hline⟩ := push_keeps h c
    obtain ⟨hpos₁, hline₁⟩ := hline (by omega)
    obtain ⟨s', hs', h', hline'⟩ := ih h₁ (by omega) hcs
    refine ⟨s', ?_, h', by rw [hline', hline₁, List.append_assoc]; rfl⟩
    have hcons : s.handleEvents (typed env (c :: cs)) =
        (s.handleKey (execute env) (.unicode c)).bind (handleEvents · (typed env cs)) := rfl
    rw [hcons, handleKey_push hc, hs₁, Option.bind_some, hs']

theorem words_of_line (hline : s.shell.line = cs.map Char.toUInt8)
    (hcs : ∀ c ∈ cs, (isAsciiGraphic c || c == ' ') = true) :
    s.shell.words = splitWhitespace (trim cs) := by
  have hascii : ∀ c ∈ cs, c.toNat < 128 := fun c hc => by
    have := printable_range (hcs c hc)
    omega
  rw [Shell.words, hline, fromUtf8_ascii hascii, Option.getD_some]

/-- Enter after a line that is typed from its start. -/
theorem handleEvents_enter (h : s.screen.Inv) (hpos : s.shell.pos = 0) (env : Env)
    (hlen : cs.length ≤ 256) (hcs : ∀ c ∈ cs, (isAsciiGraphic c || c == ' ') = true) :
    ∃ s' : Console, s'.screen.Inv ∧ s'.shell.words = splitWhitespace (trim cs) ∧
      s.handleEvents (typed env cs ++ [(env, .unicode '\n')]) =
        s'.handleKey (execute env) (.unicode '\n') := by
  obtain ⟨s', hs', h', hline⟩ := handleEvents_typed h env (by omega) hcs
  have hempty : s.shell.line = [] := by rw [Shell.line, hpos, List.take_zero]
  rw [hempty, List.nil_append] at hline
  refine ⟨s', h', words_of_line hline hcs, ?_⟩
  rw [handleEvents_append, hs', Option.bind_some, handleEvents_singleton]

end Console

/-- **When the shell panics.**  Keys are given to a shell on any screen that keeps its own
invariant, while the kernel around it changes as it likes.

* They are all handled just if none of them is Enter on a line whose first two words are `alloc` and
  a `usize` above `2 ^ 63 - 8`, which is no size of a layout.
* Enter that is handled leaves an empty line.
* So a line of at most 256 printable characters is executed, and the line is empty after it, unless
  it is such an `alloc`. -/
theorem shell_panics_iff (s₀ : Console) (h : s₀.screen.Inv) :
    (∀ events, (∃ s, s₀.handleEvents events = some s) ↔
      ∀ pre env s, pre ++ [(env, .unicode '\n')] <+: events → s₀.handleEvents pre = some s →
        ¬ HugeAlloc s.shell.words) ∧
    (∀ events env s, s₀.handleEvents (events ++ [(env, .unicode '\n')]) = some s →
      s.shell.pos = 0) ∧
    (s₀.shell.pos = 0 → ∀ env cs, cs.length ≤ 256 →
      (∀ c ∈ cs, (isAsciiGraphic c || c == ' ') = true) →
        ((∃ s, s₀.handleEvents (Console.typed env cs ++ [(env, .unicode '\n')]) = some s ∧
          s.shell.pos = 0) ↔ ¬ HugeAlloc (splitWhitespace (trim cs)))) := by
  refine ⟨fun events => ?_, fun events env s hs => ?_, fun hpos env cs hlen hcs => ?_⟩
  · rw [Console.handleEvents_returns_iff h]
    constructor
    · exact fun hno pre env s hpre hs hhuge => hno pre _ s hpre hs ⟨rfl, hhuge⟩
    · rintro hno pre ⟨env, key⟩ s hpre hs ⟨rfl, hhuge⟩
      exact hno pre env s hpre hs hhuge
  · rw [Console.handleEvents_append] at hs
    obtain ⟨s₁, hs₁, hs⟩ := Option.bind_eq_some_iff.mp hs
    rw [Console.handleEvents_singleton] at hs
    exact (Console.handleKey_post (Console.handleEvents_inv h hs₁) hs).2 rfl
  · obtain ⟨s₁, h₁, hwords, heq⟩ := Console.handleEvents_enter h hpos env hlen hcs
    rw [heq, ← hwords]
    constructor
    · rintro ⟨s, hs, -⟩ hhuge
      rw [Console.handleKey_eq_none h₁ hhuge] at hs
      cases hs
    · intro hhuge
      obtain ⟨s, hs, -, hempty⟩ := Console.handleKey_keeps h₁ fun hfatal => hhuge hfatal.2
      exact ⟨s, hs, hempty rfl⟩

/-- A kernel that has done nothing yet, with no room on its heap. -/
def idleKernel : Env :=
  ⟨⟨0, 0, 0, 0, 0, 0, 0, 0, 0, Vector.replicate 16 0, 0, 0⟩, .new, .new, fun _ => none⟩

/-- A new shell on a screen of two cells. -/
def pairConsole : Console :=
  ⟨Shell.new, FrameBufferWriter.new (fun _ => 0) 1152 FrameBufferWriter.pairInfo⟩

theorem inv_pairConsole : pairConsole.screen.Inv := FrameBufferWriter.inv_new _ (by decide)

theorem shell_panics_iff_trace :
    ∃ s, pairConsole.handleEvents (Console.typed idleKernel "trace 18446744073709551615".toList ++
      [(idleKernel, .unicode '\n')]) = some s ∧ s.shell.pos = 0 :=
  ((shell_panics_iff pairConsole inv_pairConsole).2.2 rfl idleKernel _ (by decide +kernel)
    (List.all_eq_true.mp (by decide +kernel))).mpr (by decide +kernel)

/-- **A line that panics**: `alloc` of `2 ^ 63` bytes. -/
theorem shell_panics_on_alloc :
    pairConsole.handleEvents (Console.typed idleKernel "alloc 9223372036854775808".toList ++
      [(idleKernel, .unicode '\n')]) = none := by
  have hhuge : HugeAlloc (splitWhitespace (trim "alloc 9223372036854775808".toList)) := by
    decide +kernel
  obtain ⟨s, h, hwords, heq⟩ := Console.handleEvents_enter inv_pairConsole rfl idleKernel
    (show "alloc 9223372036854775808".toList.length ≤ 256 by decide +kernel)
    (List.all_eq_true.mp (by decide +kernel))
  rw [heq]
  exact Console.handleKey_eq_none h (hwords ▸ hhuge)

end YontiOs
