import YontiOs.Machinery.Mem

/-!
# Machinery/Loads — programs that read memory

A program over memory that is only read: what it returns, and the list of its loads in the order it
makes them.  `value` and `loads` run through a program step by step.

The kernel is built with debug assertions, and there a load through a plain pointer that is not
aligned stops the program.  So what a build comes to is `run`: `value`, if all loads are aligned.
Where a program can also panic, its result is an option, and `outcome` has both as `none`.
-/

namespace YontiOs

/-- A load of `size` bytes at `addr`.  A field of a packed record may be anywhere; any other load
asks for an aligned address. -/
structure Load where
  addr : ℕ
  size : ℕ
  packed : Bool
  deriving DecidableEq, Repr

def Load.Aligned (ld : Load) : Prop := ld.packed = false → ld.size ∣ ld.addr

instance : DecidablePred Load.Aligned := fun ld =>
  inferInstanceAs (Decidable (ld.packed = false → ld.size ∣ ld.addr))

/-- A result and the loads made for it. -/
def LoadM (α : Type) : Type := Mem → α × List Load

namespace LoadM

variable {α β : Type} {m : Mem} {a n v : ℕ}

instance : Monad LoadM where
  pure a := fun _ => (a, [])
  bind x f := fun m => ((f (x m).1 m).1, (x m).2 ++ (f (x m).1 m).2)

/-- What the program returns on a memory. -/
def value (x : LoadM α) (m : Mem) : α := (x m).1

/-- The loads it makes. -/
def loads (x : LoadM α) (m : Mem) : List Load := (x m).2

/-- What the program comes to: the first load that is not aligned stops it. -/
def run (x : LoadM α) (m : Mem) : Option α :=
  if ∀ ld ∈ x.loads m, ld.Aligned then some (x.value m) else none

/-- What a program that can panic comes to. -/
def outcome (x : LoadM (Option α)) (m : Mem) : Option α := (x.run m).join

/-- A word through a plain pointer. -/
def load (a n : ℕ) : LoadM ℕ := fun m => (m.readLE a n, [⟨a, n, false⟩])

/-- A word that is a field of a packed record. -/
def loadPacked (a n : ℕ) : LoadM ℕ := fun m => (m.readLE a n, [⟨a, n, true⟩])

/-- A byte string. -/
def loadBytes (a n : ℕ) : LoadM (List UInt8) := fun m => (m.bytesAt a n, [⟨a, n, true⟩])

def load8 (a : ℕ) : LoadM UInt8 := do return UInt8.ofNat (← load a 1)

def load16 (a : ℕ) : LoadM UInt16 := do return UInt16.ofNat (← load a 2)

def load32 (a : ℕ) : LoadM UInt32 := do return UInt32.ofNat (← load a 4)

@[simp] theorem value_pure (x : α) : (pure x : LoadM α).value m = x := rfl

@[simp] theorem value_bind (x : LoadM α) (f : α → LoadM β) :
    (x >>= f).value m = (f (x.value m)).value m := rfl

@[simp] theorem loads_pure (x : α) : (pure x : LoadM α).loads m = [] := rfl

@[simp] theorem loads_bind (x : LoadM α) (f : α → LoadM β) :
    (x >>= f).loads m = x.loads m ++ (f (x.value m)).loads m := rfl

@[simp] theorem loads_load (a n : ℕ) : (load a n).loads m = [⟨a, n, false⟩] := rfl

@[simp] theorem loads_loadPacked (a n : ℕ) : (loadPacked a n).loads m = [⟨a, n, true⟩] := rfl

@[simp] theorem loads_loadBytes (a n : ℕ) : (loadBytes a n).loads m = [⟨a, n, true⟩] := rfl

@[simp] theorem loads_load8 (a : ℕ) : (load8 a).loads m = [⟨a, 1, false⟩] := rfl

@[simp] theorem loads_load16 (a : ℕ) : (load16 a).loads m = [⟨a, 2, false⟩] := rfl

@[simp] theorem loads_load32 (a : ℕ) : (load32 a).loads m = [⟨a, 4, false⟩] := rfl

theorem value_loadBytes (m : Mem) (a n : ℕ) : (loadBytes a n).value m = m.bytesAt a n := rfl

theorem run_eq_some {x : LoadM α} {r : α} :
    x.run m = some r ↔ (∀ ld ∈ x.loads m, ld.Aligned) ∧ x.value m = r := by
  rw [run]
  split_ifs with h
  · exact ⟨fun heq => ⟨h, Option.some.inj heq⟩, fun heq => congrArg some heq.2⟩
  · exact iff_of_false (fun heq => by cases heq) fun heq => h heq.1

theorem outcome_eq_some {x : LoadM (Option α)} {r : α} :
    x.outcome m = some r ↔ (∀ ld ∈ x.loads m, ld.Aligned) ∧ x.value m = some r := by
  rw [outcome, Option.join_eq_some_iff, run_eq_some]

theorem run_pure (x : α) : (pure x : LoadM α).run m = some x :=
  if_pos fun _ hld => absurd hld List.not_mem_nil

/-- **Step by step**: a program that is stopped goes no further. -/
theorem run_bind (x : LoadM α) (f : α → LoadM β) :
    (x >>= f).run m = (x.run m).bind fun a => (f a).run m := by
  by_cases hx : ∀ ld ∈ x.loads m, ld.Aligned
  · have hrun : x.run m = some (x.value m) := if_pos hx
    rw [hrun, Option.bind_some, run, run, loads_bind, value_bind]
    simp only [List.forall_mem_append, eq_true hx, true_and]
  · have hrun : x.run m = none := if_neg hx
    rw [hrun, Option.bind_none, run, loads_bind]
    exact if_neg fun h => hx (List.forall_mem_append.mp h).1

/-- A panic ends a program, as a load that is not aligned does. -/
theorem outcome_bind (x : LoadM (Option α)) {f : Option α → LoadM (Option β)}
    (hf : f none = pure none) :
    (x >>= f).outcome m = (x.outcome m).bind fun a => (f (some a)).outcome m := by
  rw [outcome, outcome, run_bind]
  rcases x.run m with _ | _ | a
  · rfl
  · rw [Option.bind_some, hf, run_pure]
    rfl
  · rfl

theorem outcome_pure (x : Option α) : (pure x : LoadM (Option α)).outcome m = x := by
  rw [outcome, run_pure, Option.join_some]

theorem run_load (m : Mem) (a n : ℕ) :
    (load a n).run m = if n ∣ a then some (m.readLE a n) else none := by
  rw [run, loads_load]
  simp only [List.forall_mem_singleton, Load.Aligned, forall_const]
  rfl

/-- Without plain loads nothing stops a program. -/
theorem run_of_packed {x : LoadM α} (h : ∀ ld ∈ x.loads m, ld.packed = true) :
    x.run m = some (x.value m) :=
  if_pos fun ld hld hplain => by
    rw [h ld hld] at hplain
    cases hplain

theorem run_loadPacked (m : Mem) (a n : ℕ) : (loadPacked a n).run m = some (m.readLE a n) :=
  run_of_packed (List.forall_mem_singleton.mpr rfl)

theorem run_loadBytes (m : Mem) (a n : ℕ) : (loadBytes a n).run m = some (m.bytesAt a n) :=
  run_of_packed (List.forall_mem_singleton.mpr rfl)

/-- A load in a byte string that is held. -/
theorem value_load (h : m.Holds a (Mem.bytesLE n v)) : (load a n).value m = v % 256 ^ n :=
  Mem.readLE_of_holds h

theorem value_load8 (m : Mem) (a : ℕ) : (load8 a).value m = m a :=
  UInt8.ofNat_toNat

theorem value_load16 {x : UInt16} (h : m.Holds a (Mem.bytesLE 2 x.toNat)) :
    (load16 a).value m = x := by
  rw [load16, value_bind, value_load h, Nat.mod_eq_of_lt (show x.toNat < 256 ^ 2 from x.toNat_lt)]
  exact UInt16.ofNat_toNat

theorem value_load32 {x : UInt32} (h : m.Holds a (Mem.bytesLE 4 x.toNat)) :
    (load32 a).value m = x := by
  rw [load32, value_bind, value_load h, Nat.mod_eq_of_lt (show x.toNat < 256 ^ 4 from x.toNat_lt)]
  exact UInt32.ofNat_toNat

/-- A program over addresses from a base on. -/
def relocate (base : ℕ) (x : LoadM α) : LoadM α := fun m =>
  let (a, loads) := x fun addr => m (base + addr)
  (a, loads.map fun ld => { ld with addr := base + ld.addr })

theorem value_relocate (base : ℕ) (x : LoadM α) :
    (x.relocate base).value m = x.value fun addr => m (base + addr) := rfl

theorem loads_relocate (base : ℕ) (x : LoadM α) : (x.relocate base).loads m =
    (x.loads fun addr => m (base + addr)).map fun ld => { ld with addr := base + ld.addr } := rfl

end LoadM

namespace Mem

variable {m : Mem} {a : ℕ}

theorem bytesAt_of_holds {bytes : List UInt8} (h : m.Holds a bytes) :
    m.bytesAt a bytes.length = bytes := by
  induction bytes generalizing a with
  | nil => rfl
  | cons byte bytes ih => rw [List.length_cons, bytesAt, h.1, ih h.2]

/-- What is held at a base is held at the start of what follows it. -/
theorem Holds.relocate {base : ℕ} {bytes : List UInt8} (h : m.Holds (base + a) bytes) :
    Holds (fun addr => m (base + addr)) a bytes := by
  induction bytes generalizing a with
  | nil => trivial
  | cons byte bytes ih => exact ⟨h.1, ih h.2⟩

/-- **Words held one after the other** are read one by one. -/
theorem map_readLE_of_holds {width : ℕ} {words : List ℕ}
    (h : m.Holds a (words.flatMap (bytesLE width))) (hlt : ∀ w ∈ words, w < 256 ^ width) :
    (List.range words.length).map (fun i => m.readLE (a + i * width) width) = words := by
  induction words generalizing a with
  | nil => rfl
  | cons w words ih =>
    rw [List.flatMap_cons, holds_append, length_bytesLE] at h
    rw [List.length_cons, List.range_succ_eq_map, List.map_cons, List.map_map, zero_mul, add_zero,
      readLE_of_holds h.1, Nat.mod_eq_of_lt (hlt w List.mem_cons_self)]
    refine congrArg (w :: ·) (Eq.trans ?_ (ih h.2 fun v hv => hlt v (List.mem_cons_of_mem w hv)))
    refine List.map_congr_left fun i _ => ?_
    rw [Function.comp_apply, Nat.succ_mul, add_assoc a width, add_comm width]

instance decidableHolds (m : Mem) : ∀ a bytes, Decidable (m.Holds a bytes)
  | _, [] => isTrue trivial
  | a, byte :: bytes =>
    let _ := decidableHolds m (a + 1) bytes
    inferInstanceAs (Decidable (m a = byte ∧ m.Holds (a + 1) bytes))

end Mem

end YontiOs
