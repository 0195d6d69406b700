import Mathlib

/-!
# Machinery/Returns — functions that may fail, specified for both outcomes

`Returns g o P` says two things of a computation that ends in a value or fails: whatever it returns
satisfies `P`, and it does return when `g` holds.  The guard `g` is the part of the environment a
program cannot see, and stays the same along a computation, so partial and total correctness are
proved in one pass (`Returns.bind`, `Returns.foldlM`).
-/

namespace YontiOs

variable {α β σ : Type*} {g g' : Prop} {o : Option α} {a : α} {P P' : α → Prop} {R : β → Prop}

/-- What is returned satisfies `P`, and something is returned when `g` holds. -/
structure Returns (g : Prop) (o : Option α) (P : α → Prop) : Prop where
  post : ∀ a, o = some a → P a
  returns : g → ∃ a, o = some a

namespace Returns

theorem of_eq (h : o = some a) (hP : P a) : Returns g o P :=
  ⟨fun b hb => by rwa [← Option.some.inj (h.symm.trans hb)], fun _ => ⟨a, h⟩⟩

theorem mono (h : Returns g o P) (hP : ∀ a, P a → P' a) : Returns g o P' :=
  ⟨fun a ha => hP a (h.post a ha), h.returns⟩

theorem guard (h : Returns g o P) (hg : g' → g) : Returns g' o P :=
  ⟨h.post, fun h' => h.returns (hg h')⟩

/-- **One computation after another.** -/
theorem bind {f : α → Option β} (h : Returns g o P) (hf : ∀ a, P a → Returns g (f a) R) :
    Returns g (o.bind f) R where
  post b hb := by
    obtain ⟨a, ha, hb⟩ := Option.bind_eq_some_iff.mp hb
    exact (hf a (h.post a ha)).post b hb
  returns hg := by
    obtain ⟨a, ha⟩ := h.returns hg
    obtain ⟨b, hb⟩ := (hf a (h.post a ha)).returns hg
    exact ⟨b, Option.bind_eq_some_iff.mpr ⟨a, ha, hb⟩⟩

/-- **A loop over a list**, by an invariant of the part already done. -/
theorem foldlM {f : σ → β → Option σ} {I : List β → σ → Prop} {l : List β} {s : σ} (h : I [] s)
    (hstep : ∀ pre b post s, l = pre ++ b :: post → I pre s → Returns g (f s b) (I (pre ++ [b]))) :
    Returns g (l.foldlM f s) (I l) := by
  have key : ∀ post pre s, l = pre ++ post → I pre s → Returns g (post.foldlM f s) (I l) := by
    intro post
    induction post with
    | nil => exact fun pre s hl hs => of_eq rfl (by rwa [hl, List.append_nil])
    | cons b post ih =>
      exact fun pre s hl hs => (hstep pre b post s hl hs).bind fun s' hs' =>
        ih (pre ++ [b]) s' (by rw [hl, List.append_assoc]; rfl) hs'
  exact key l [] s rfl h

/-- **A pass over a list**, each result by itself. -/
theorem mapM {f : β → Option α} {l : List β} (h : ∀ b ∈ l, Returns g (f b) P) :
    Returns g (l.mapM f) fun as => ∀ a ∈ as, P a := by
  induction l with
  | nil => exact of_eq rfl (by simp)
  | cons b l ih =>
    rw [List.mapM_cons]
    refine (h b List.mem_cons_self).bind fun a ha => ?_
    refine (ih fun b' hb' => h b' (List.mem_cons_of_mem b hb')).bind fun as has => ?_
    exact of_eq rfl (List.forall_mem_cons.mpr ⟨ha, has⟩)

/-- **Two loops that agree** wherever an invariant of the first holds. -/
theorem foldlM_congr {f f' : σ → β → Option σ} {I : σ → Prop} {l : List β} {s : σ} (h : I s)
    (hstep : ∀ b ∈ l, ∀ s, I s → Returns g (f s b) I ∧ f' s b = f s b) :
    l.foldlM f' s = l.foldlM f s := by
  induction l generalizing s with
  | nil => rfl
  | cons b l ih =>
    obtain ⟨hkeep, heq⟩ := hstep b List.mem_cons_self s h
    rw [List.foldlM_cons, List.foldlM_cons, heq]
    exact Option.bind_congr fun s' hs' => ih (hkeep.post s' hs') fun b' hb' =>
      hstep b' (List.mem_cons_of_mem b hb')

end Returns

end YontiOs
