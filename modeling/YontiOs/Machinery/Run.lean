import Mathlib

/-!
# Machinery/Run — runs of a system whose steps may fail

A system is a partial step function, `none` being a crash.  `Run step ok s is s'` says that the
inputs `is`, each one allowed by `ok` in the state it meets, take `s` to `s'` with no crash.  What
one step keeps a run keeps (`Run.invariant`).
-/

namespace YontiOs

variable {σ ι : Type*} {step : σ → ι → Option σ} {ok ok' : σ → ι → Prop} {s s' s'' : σ} {i : ι}
  {is js : List ι}

/-- The inputs take one state to another, each allowed where it arrives. -/
inductive Run (step : σ → ι → Option σ) (ok : σ → ι → Prop) : σ → List ι → σ → Prop
  | nil (s : σ) : Run step ok s [] s
  | cons {s s' s'' : σ} {i : ι} {is : List ι} (hok : ok s i) (hstep : step s i = some s')
      (hrun : Run step ok s' is s'') : Run step ok s (i :: is) s''

/-- **The invariant rule**: what every allowed step keeps, a run keeps. -/
theorem Run.invariant {P : σ → Prop}
    (hkeep : ∀ s i s', P s → ok s i → step s i = some s' → P s') (h : Run step ok s is s')
    (hs : P s) : P s' := by
  induction h with
  | nil => exact hs
  | cons hok hstep _ ih => exact ih (hkeep _ _ _ hs hok hstep)

/-- **What one input brings about** and every step keeps, a run with that input leaves. -/
theorem Run.established {I P : σ → Prop} (hI : ∀ s j s', I s → ok s j → step s j = some s' → I s')
    (hkeep : ∀ s j s', I s → ok s j → P s ∨ j = i → step s j = some s' → P s')
    (h : Run step ok s is s') (hs : I s) (hmem : P s ∨ i ∈ is) : P s' := by
  induction h with
  | nil => exact hmem.resolve_right List.not_mem_nil
  | cons hok hstep _ ih =>
    refine ih (hI _ _ _ hs hok hstep) ?_
    rcases hmem with hP | hmem
    · exact .inl (hkeep _ _ _ hs hok (.inl hP) hstep)
    · rcases List.mem_cons.mp hmem with rfl | hmem
      · exact .inl (hkeep _ _ _ hs hok (.inr rfl) hstep)
      · exact .inr hmem

/-- What is allowed may be widened. -/
theorem Run.mono (hok : ∀ s i, ok s i → ok' s i) (h : Run step ok s is s') :
    Run step ok' s is s' := by
  induction h with
  | nil => exact .nil _
  | cons hi hstep _ ih => exact .cons (hok _ _ hi) hstep ih

/-- The state a run ends in, where inputs can be checked. -/
def runFrom (step : σ → ι → Option σ) (ok : σ → ι → Prop) [∀ s i, Decidable (ok s i)] (s : σ)
    (is : List ι) : Option σ :=
  is.foldlM (fun s i => if ok s i then step s i else none) s

theorem Run.of_runFrom [∀ s i, Decidable (ok s i)] (h : runFrom step ok s is = some s') :
    Run step ok s is s' := by
  induction is generalizing s with
  | nil =>
    obtain rfl := Option.some.inj h
    exact .nil s
  | cons i is ih =>
    obtain ⟨s₁, h₁, h⟩ := Option.bind_eq_some_iff.mp h
    dsimp only at h₁
    split_ifs at h₁ with hok
    exact .cons hok h₁ (ih h)

/-- A run goes on with a run. -/
theorem Run.append (h : Run step ok s is s') (h' : Run step ok s' js s'') :
    Run step ok s (is ++ js) s'' := by
  induction h with
  | nil => exact h'
  | cons hok hstep _ ih => exact .cons hok hstep (ih h')

/-! ## All prefixes of the inputs -/

section Prefixes

variable {I : List ι → σ → Prop} {P : σ → Prop} {bad : σ → ι → Prop}

/-- An invariant of the inputs so far holds up to any point that no bad step comes before. -/
theorem inv_of_no_bad
    (hstep : ∀ pre i s, pre ++ [i] <+: is → I pre s → ¬ bad s i →
      ∃ s', step s i = some s' ∧ I (pre ++ [i]) s')
    (hgood : ∀ pre i s', pre ++ [i] <+: is → pre.foldlM step s = some s' → I pre s' → ¬ bad s' i)
    (hs : I [] s) {pre : List ι} (hpre : pre <+: is) :
    ∃ s', pre.foldlM step s = some s' ∧ I pre s' := by
  induction pre using List.reverseRecOn with
  | nil => exact ⟨s, rfl, hs⟩
  | append_singleton pre i ih =>
    obtain ⟨s', hs', hinv⟩ := ih ((List.prefix_append _ _).trans hpre)
    obtain ⟨s'', hs'', hinv'⟩ := hstep pre i s' hpre hinv (hgood pre i s' hpre hs' hinv)
    refine ⟨s'', ?_, hinv'⟩
    rw [List.foldlM_append, hs']
    exact (bind_pure _).trans hs''

/-- **Where only bad steps break a property, and each does at once**: it holds after all prefixes of
the inputs just when no step of them is bad. -/
theorem prefixes_iff
    (hstep : ∀ pre i s, pre ++ [i] <+: is → I pre s → ¬ bad s i →
      ∃ s', step s i = some s' ∧ I (pre ++ [i]) s')
    (hP : ∀ pre s, I pre s → P s)
    (hbad : ∀ pre i s s', I pre s → bad s i → step s i = some s' → ¬ P s') (hs : I [] s) :
    (∀ pre, pre <+: is → ∃ s', pre.foldlM step s = some s' ∧ P s') ↔
      ∀ pre i s', pre ++ [i] <+: is → pre.foldlM step s = some s' → ¬ bad s' i := by
  constructor
  · intro hall
    have hgood : ∀ pre i s', pre ++ [i] <+: is → pre.foldlM step s = some s' → I pre s' →
        ¬ bad s' i := by
      intro pre i s' hpre hs' hinv hb
      obtain ⟨s'', hs'', hp⟩ := hall (pre ++ [i]) hpre
      rw [List.foldlM_append, hs'] at hs''
      exact hbad pre i s' s'' hinv hb ((bind_pure _).symm.trans hs'') hp
    intro pre i s' hpre hs'
    obtain ⟨s'', hs'', hinv⟩ :=
      inv_of_no_bad hstep hgood hs ((List.prefix_append _ _).trans hpre)
    obtain rfl : s'' = s' := Option.some.inj (hs''.symm.trans hs')
    exact hgood pre i s'' hpre hs' hinv
  · intro hno pre hpre
    obtain ⟨s', hs', hinv⟩ :=
      inv_of_no_bad hstep (fun pre i s' hpre hs' _ => hno pre i s' hpre hs') hs hpre
    exact ⟨s', hs', hP pre s' hinv⟩

end Prefixes

end YontiOs
