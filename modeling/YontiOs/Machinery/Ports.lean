import Mathlib

/-!
# Machinery/Ports — programs that drive devices through byte ports

A driver reads and writes bytes at numbered ports.  `PortM` is such a program: it may panic, and it
runs against a bus whose devices have a state of their own, which every access may change.
-/

namespace YontiOs

/-- The devices behind the ports of a machine. -/
structure PortBus (σ : Type) where
  read : ℕ → σ → UInt8 × σ
  write : ℕ → UInt8 → σ → σ

/-- A measure of the devices' state that no access raises by more than one, as the number of
accesses so far is. -/
structure PortBus.Counts {σ : Type} (bus : PortBus σ) (f : σ → ℕ) : Prop where
  read : ∀ port s, f (bus.read port s).2 ≤ f s + 1
  write : ∀ port v s, f (bus.write port v s) ≤ f s + 1

/-- A driver's program; `none` is a panic. -/
def PortM (σ α : Type) : Type := PortBus σ → σ → Option (α × σ)

namespace PortM

variable {σ α β : Type} {bus : PortBus σ} {s : σ} {port : ℕ} {v : UInt8}

instance : Monad (PortM σ) where
  pure a := fun _ s => some (a, s)
  bind x f := fun bus s => (x bus s).bind fun r => f r.1 bus r.2

/-- `Port::read`. -/
def read (port : ℕ) : PortM σ UInt8 := fun bus s => some (bus.read port s)

/-- `Port::write`. -/
def write (port : ℕ) (v : UInt8) : PortM σ Unit := fun bus s => some ((), bus.write port v s)

/-- `assert!`. -/
def assert (p : Prop) [Decidable p] : PortM σ Unit := fun _ s => if p then some ((), s) else none

/-- The result of a checked operation. -/
def checked (x : Option α) : PortM σ α := fun _ s => x.map (·, s)

/-! ## Running a program -/

theorem pure_run (a : α) : (pure a : PortM σ α) bus s = some (a, s) := rfl

theorem bind_run {x : PortM σ α} {f : α → PortM σ β} {a : α} {s' : σ} (h : x bus s = some (a, s')) :
    (x >>= f) bus s = f a bus s' := by
  change (x bus s).bind _ = _
  rw [h, Option.bind_some]

theorem read_bind {f : UInt8 → PortM σ β} :
    (read port >>= f) bus s = f (bus.read port s).1 bus (bus.read port s).2 := rfl

theorem write_bind {f : Unit → PortM σ β} :
    (write port v >>= f) bus s = f () bus (bus.write port v s) := rfl

theorem write_run : (write port v : PortM σ Unit) bus s = some ((), bus.write port v s) := rfl

end PortM

end YontiOs
