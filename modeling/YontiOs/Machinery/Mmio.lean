import Mathlib

/-!
# Machinery/Mmio — programs that drive a device through its registers

A driver reads and writes 32-bit registers at offsets from the base of a device.  `MmioM` is such a
program: it may panic, and it leaves the log of its accesses.  The device is arbitrary: what it
answers to a read may depend on all accesses before.
-/

namespace YontiOs

/-- The register at an offset from a base address. -/
structure Reg where
  base : ℕ
  offset : ℕ
  deriving DecidableEq, Repr

/-- A read with the device's answer, or a write. -/
inductive Access
  | read (reg : Reg) (answer : UInt32)
  | write (reg : Reg) (value : UInt32)
  deriving DecidableEq, Repr

/-- What a device answers, after the accesses of a log, to a read of a register. -/
def Device : Type := List Access → Reg → UInt32

/-- A driver's program; `none` is a panic. -/
def MmioM (α : Type) : Type := Device → List Access → Option (α × List Access)

namespace MmioM

variable {α β : Type} {dev : Device} {log : List Access} {s : β × List Access}

instance : Monad MmioM where
  pure a := fun _ log => some (a, log)
  bind x f := fun dev log => (x dev log).bind fun r => f r.1 dev r.2

/-- `ptr::read_volatile`. -/
def readVolatile (reg : Reg) : MmioM UInt32 := fun dev log =>
  some (dev log reg, log ++ [.read reg (dev log reg)])

/-- `ptr::write_volatile`. -/
def writeVolatile (reg : Reg) (value : UInt32) : MmioM Unit := fun _ log =>
  some ((), log ++ [.write reg value])

/-- `assert!`. -/
def assert (p : Prop) [Decidable p] : MmioM Unit := fun _ log => if p then some ((), log) else none

/-- The result of a checked operation. -/
def checked (x : Option α) : MmioM α := fun _ log => x.map (·, log)

/-! ## Peeling a program that returns -/

theorem pure_eq_some {a : β} : (pure a : MmioM β) dev log = some s ↔ s = (a, log) :=
  Option.some_inj.trans eq_comm

theorem bind_eq_some {x : MmioM α} {f : α → MmioM β} : (x >>= f) dev log = some s ↔
    ∃ a log', x dev log = some (a, log') ∧ f a dev log' = some s := by
  refine Option.bind_eq_some_iff.trans ⟨?_, ?_⟩
  · rintro ⟨⟨a, log'⟩, h⟩
    exact ⟨a, log', h⟩
  · rintro ⟨a, log', h⟩
    exact ⟨(a, log'), h⟩

theorem assert_eq_some {p : Prop} [Decidable p] {u : Unit × List Access} :
    assert p dev log = some u ↔ p ∧ u = ((), log) := by
  rw [assert]
  split_ifs with h
  · exact ⟨fun he => ⟨h, (Option.some.inj he).symm⟩, fun he => congrArg some he.2.symm⟩
  · exact ⟨fun he => (by cases he), fun he => absurd he.1 h⟩

/-- What follows an assertion runs with it. -/
theorem assert_bind {p : Prop} [Decidable p] {f : Unit → MmioM β} :
    (assert p >>= f) dev log = some s ↔ p ∧ f () dev log = some s := by
  rw [bind_eq_some]
  constructor
  · rintro ⟨a, log', h, hf⟩
    obtain ⟨hp, heq⟩ := assert_eq_some.mp h
    obtain ⟨rfl, rfl⟩ := Prod.mk.inj heq
    exact ⟨hp, hf⟩
  · rintro ⟨hp, hf⟩
    exact ⟨(), log, assert_eq_some.mpr ⟨hp, rfl⟩, hf⟩

/-- What follows a checked operation runs with its result. -/
theorem checked_bind {x : Option α} {f : α → MmioM β} :
    (checked x >>= f) dev log = some s ↔ ∃ a, x = some a ∧ f a dev log = some s := by
  rw [bind_eq_some]
  constructor
  · rintro ⟨a, log', h, hf⟩
    obtain ⟨b, rfl, heq⟩ := Option.map_eq_some_iff.mp h
    obtain ⟨rfl, rfl⟩ := Prod.mk.inj heq
    exact ⟨b, rfl, hf⟩
  · rintro ⟨a, rfl, hf⟩
    exact ⟨a, log, rfl, hf⟩

/-! ## What a program accesses -/

/-- Every access of the program is one of `P`, whatever the device answers. -/
def Does (P : Access → Prop) (x : MmioM α) : Prop :=
  ∀ dev log a log', x dev log = some (a, log') → ∃ as, log' = log ++ as ∧ ∀ b ∈ as, P b

namespace Does

variable {P : Access → Prop} {x : MmioM α} {f : α → MmioM β}

theorem pure (a : α) : Does P (Pure.pure a : MmioM α) := by
  intro dev log b log' h
  obtain ⟨-, rfl⟩ := Prod.mk.inj (Option.some.inj h)
  exact ⟨[], (List.append_nil _).symm, fun _ hb => absurd hb List.not_mem_nil⟩

/-- What follows a program has to do with the results that it may have. -/
theorem bind_of_returns (hx : Does P x)
    (hf : ∀ dev log a log', x dev log = some (a, log') → Does P (f a)) : Does P (x >>= f) := by
  intro dev log b log' h
  obtain ⟨a, log₁, ha, hb⟩ := bind_eq_some.mp h
  obtain ⟨as, rfl, has⟩ := hx _ _ _ _ ha
  obtain ⟨bs, rfl, hbs⟩ := hf _ _ _ _ ha _ _ _ _ hb
  refine ⟨as ++ bs, List.append_assoc _ _ _, fun c hc => ?_⟩
  exact (List.mem_append.mp hc).elim (has c) (hbs c)

theorem bind (hx : Does P x) (hf : ∀ a, Does P (f a)) : Does P (x >>= f) :=
  hx.bind_of_returns fun _ _ a _ _ => hf a

theorem readVolatile {reg : Reg} (h : ∀ v, P (.read reg v)) : Does P (MmioM.readVolatile reg) := by
  intro dev log a log' hr
  obtain ⟨-, rfl⟩ := Prod.mk.inj (Option.some.inj hr)
  exact ⟨_, rfl, fun b hb => List.mem_singleton.mp hb ▸ h _⟩

theorem writeVolatile {reg : Reg} {v : UInt32} (h : P (.write reg v)) :
    Does P (MmioM.writeVolatile reg v) := by
  intro dev log a log' hr
  obtain ⟨-, rfl⟩ := Prod.mk.inj (Option.some.inj hr)
  exact ⟨_, rfl, fun b hb => List.mem_singleton.mp hb ▸ h⟩

theorem assert (p : Prop) [Decidable p] : Does P (MmioM.assert p) := by
  intro dev log a log' h
  obtain ⟨-, heq⟩ := assert_eq_some.mp h
  obtain ⟨-, rfl⟩ := Prod.mk.inj heq
  exact ⟨[], (List.append_nil _).symm, fun _ hb => absurd hb List.not_mem_nil⟩

theorem checked (o : Option α) : Does P (MmioM.checked o) := by
  intro dev log a log' h
  obtain ⟨b, -, heq⟩ := Option.map_eq_some_iff.mp h
  obtain ⟨-, rfl⟩ := Prod.mk.inj heq
  exact ⟨[], (List.append_nil _).symm, fun _ hb => absurd hb List.not_mem_nil⟩

theorem checked_bind {o : Option α} (hf : ∀ a, o = some a → Does P (f a)) :
    Does P (MmioM.checked o >>= f) := by
  refine (checked o).bind_of_returns fun dev log a log' h => hf a ?_
  obtain ⟨b, hb, heq⟩ := Option.map_eq_some_iff.mp h
  rw [hb, (Prod.mk.inj heq).1]

end Does

end MmioM

end YontiOs
