import Mathlib

/-!
# Machinery/Checked — programs that panic, against what they compute

A program built with overflow checks stops at an index out of bounds, at a difference below zero and
at a number that does not fit its type.  `Gives g c a` says that `c` does none of the first two: it
returns `a`, or overflows where `g` fails.  So a program over machine integers is compared with a
function over the natural numbers, one operation at a time, and `g` collects what must fit.
-/

namespace YontiOs

/-- Why a program stopped. -/
inductive Panic
  /-- an index or a slice out of bounds -/
  | index
  /-- a difference below zero -/
  | subtract
  /-- a sum or a product that does not fit -/
  | overflow
  deriving DecidableEq, Repr

abbrev Checked (α : Type*) := Except Panic α

namespace Checked

universe u

variable {α β σ : Type u} {g : Prop} {a b bits n : ℕ}

/-! ## Operations -/

/-- A sum or a product in a type of so many bits. -/
def fit (bits n : ℕ) : Checked ℕ := if n < 2 ^ bits then .ok n else .error .overflow

/-- `a + b` on `usize`. -/
def add (a b : ℕ) : Checked ℕ := fit 64 (a + b)

/-- `a * b` on `usize`. -/
def mul (a b : ℕ) : Checked ℕ := fit 64 (a * b)

/-- `a - b` on an unsigned type. -/
def sub (a b : ℕ) : Checked ℕ := if b ≤ a then .ok (a - b) else .error .subtract

/-- What an index or a slice finds. -/
def index (o : Option α) : Checked α := o.elim (.error .index) .ok

/-- `for i in 0..n`. -/
def forRange (n : ℕ) (f : σ → ℕ → Checked σ) (s : σ) : Checked σ := (List.range n).foldlM f s

theorem ok_bind (x : α) (f : α → Checked β) : (.ok x : Checked α) >>= f = f x := rfl

theorem error_bind (e : Panic) (f : α → Checked β) :
    (.error e : Checked α) >>= f = .error e := rfl

theorem toOption_eq_some {c : Checked α} {x : α} : c.toOption = some x ↔ c = .ok x := by
  cases c with
  | error e => exact iff_of_false (fun h => by cases h) fun h => by cases h
  | ok y => exact ⟨fun h => congrArg _ (Option.some.inj h), fun h => congrArg _ (Except.ok.inj h)⟩

theorem bind_eq_ok {c : Checked α} {f : α → Checked β} {y : β} :
    c >>= f = .ok y ↔ ∃ x, c = .ok x ∧ f x = .ok y := by
  cases c with
  | error e => exact iff_of_false (fun h => by cases h) fun ⟨_, h, _⟩ => by cases h
  | ok x => exact ⟨fun h => ⟨x, rfl, h⟩, fun ⟨_, hx, h⟩ => Except.ok.inj hx ▸ h⟩

theorem fit_eq_ok {m : ℕ} : fit bits n = .ok m ↔ n < 2 ^ bits ∧ n = m := by
  rw [fit]
  split_ifs with h
  · exact ⟨fun heq => ⟨h, Except.ok.inj heq⟩, fun heq => congrArg _ heq.2⟩
  · exact iff_of_false (fun heq => by cases heq) fun heq => h heq.1

/-- **A loop that returns has taken all its steps**, each from a state with the invariant. -/
theorem steps_of_forRange {f : σ → ℕ → Checked σ} {s s' : σ} (I : σ → Prop) (hs : I s)
    (hstep : ∀ i < n, ∀ t t', I t → f t i = .ok t' → I t') (h : forRange n f s = .ok s') :
    I s' ∧ ∀ i < n, ∃ t t', I t ∧ f t i = .ok t' := by
  rw [forRange] at h
  induction n generalizing s' with
  | zero => exact ⟨Except.ok.inj h ▸ hs, fun i hi => absurd hi (Nat.not_lt_zero i)⟩
  | succ n ih =>
    rw [List.range_succ, List.foldlM_append, bind_eq_ok] at h
    obtain ⟨t, ht, hlast⟩ := h
    obtain ⟨hI, hprev⟩ := ih (fun i hi => hstep i (Nat.lt_succ_of_lt hi)) ht
    rw [List.foldlM_cons, bind_eq_ok] at hlast
    obtain ⟨t', ht', heq⟩ := hlast
    obtain rfl : t' = s' := Except.ok.inj heq
    refine ⟨hstep n (Nat.lt_succ_self n) t t' hI ht', fun i hi => ?_⟩
    rcases Nat.lt_succ_iff_lt_or_eq.mp hi with hi | rfl
    · exact hprev i hi
    · exact ⟨t, t', hI, ht'⟩

/-! ## What a program gives -/

/-- **The program returns `x`**, or overflows, which it does only where `g` fails. -/
def Gives (g : Prop) (c : Checked α) (x : α) : Prop := c = .ok x ∨ ¬ g ∧ c = .error .overflow

namespace Gives

theorem pure (x : α) : Gives g (.ok x) x := .inl rfl

theorem eq_ok {c : Checked α} {x : α} (h : Gives g c x) (hg : g) : c = .ok x :=
  h.resolve_right fun hnot => hnot.1 hg

/-- **One program after another.** -/
theorem bind {c : Checked α} {f : α → Checked β} {x : α} {y : β} (h : Gives g c x)
    (hf : Gives g (f x) y) : Gives g (c >>= f) y := by
  rcases h with rfl | ⟨hg, rfl⟩
  · exact hf
  · exact .inr ⟨hg, rfl⟩

theorem ite {p : Prop} [Decidable p] {c d : Checked α} {x y : α} (hc : p → Gives g c x)
    (hd : ¬ p → Gives g d y) : Gives g (if p then c else d) (if p then x else y) := by
  split_ifs with hp
  · exact hc hp
  · exact hd hp

theorem fit (h : g → n < 2 ^ bits) : Gives g (fit bits n) n := by
  rw [Checked.fit]
  split_ifs with hn
  · exact pure n
  · exact .inr ⟨fun hg => hn (h hg), rfl⟩

theorem add (h : g → a + b < 2 ^ 64) : Gives g (add a b) (a + b) := fit h

theorem mul (h : g → a * b < 2 ^ 64) : Gives g (mul a b) (a * b) := fit h

theorem sub (h : b ≤ a) : Gives g (sub a b) (a - b) := .inl (if_pos h)

theorem index {o : Option α} {x : α} (h : o = some x) : Gives g (index o) x := by
  rw [h]
  exact pure x

/-- **A loop**, by an invariant of its state. -/
theorem forRange {f : σ → ℕ → Checked σ} {h : σ → ℕ → σ} {s : σ} (I : σ → Prop) (hs : I s)
    (hstep : ∀ i < n, ∀ s, I s → Gives g (f s i) (h s i) ∧ I (h s i)) :
    Gives g (forRange n f s) ((List.range n).foldl h s) ∧ I ((List.range n).foldl h s) := by
  rw [Checked.forRange]
  induction n with
  | zero => exact ⟨pure s, hs⟩
  | succ n ih =>
    obtain ⟨hgives, hinv⟩ := ih fun i hi => hstep i (Nat.lt_succ_of_lt hi)
    obtain ⟨hlast, hinv'⟩ := hstep n (Nat.lt_succ_self n) _ hinv
    rw [List.range_succ, List.foldlM_append, List.foldl_append]
    refine ⟨hgives.bind ?_, hinv'⟩
    rw [List.foldlM_cons]
    exact hlast.bind (pure _)

/-- **A run**, by an invariant of its states; each step is compared with one that may fail. -/
theorem foldlM {ι : Type*} {f : σ → ι → Checked σ} {h : σ → ι → Option σ} {s : σ} {is : List ι}
    (I : σ → Prop) (hs : I s)
    (hstep : ∀ s i, I s → ∃ s', h s i = some s' ∧ I s' ∧ Gives g (f s i) s') :
    ∃ s', is.foldlM h s = some s' ∧ I s' ∧ Gives g (is.foldlM f s) s' := by
  induction is generalizing s with
  | nil => exact ⟨s, rfl, hs, pure s⟩
  | cons i is ih =>
    obtain ⟨s₁, hs₁, hinv, hgives⟩ := hstep s i hs
    obtain ⟨s', hs', hinv', hgives'⟩ := ih hinv
    refine ⟨s', ?_, hinv', ?_⟩
    · rw [List.foldlM_cons, hs₁]
      exact hs'
    · rw [List.foldlM_cons]
      exact hgives.bind hgives'

end Gives

end Checked

end YontiOs
