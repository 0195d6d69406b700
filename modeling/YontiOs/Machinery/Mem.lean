import Mathlib

/-!
# Machinery/Mem — byte-addressed memory with little-endian words

Raw memory as the kernel's pointer code sees it: a byte for every address, read and written in words
of `n` bytes.  `Holds` places a byte string in memory, and a word in it is read (`readLE_of_holds`).
So a write is visible in a read of the same word (`readLE_writeLE_self`), and it is invisible in a
read of a disjoint one (`readLE_writeLE_of_disjoint`).

A typed place is reached through `deref`, which is the alignment check of the debug build.
-/

namespace YontiOs

/-- A byte for every address. -/
abbrev Mem := ℕ → UInt8

/-- A pointer to a type of alignment `align` is dereferenced: the debug build panics when it is
misaligned. -/
def deref (align a : ℕ) : Option Unit := if align ∣ a then some () else none

theorem deref_of_dvd {align a : ℕ} (h : align ∣ a) : deref align a = some () := if_pos h

@[simp] theorem deref_eq_some {align a : ℕ} {u : Unit} : deref align a = some u ↔ align ∣ a := by
  simp [deref]

namespace Mem

variable {m m' : Mem} {a b n k v : ℕ}

/-- The `n`-byte little-endian word at `a`. -/
def readLE (m : Mem) (a : ℕ) : ℕ → ℕ
  | 0 => 0
  | n + 1 => (m a).toNat + 256 * readLE m (a + 1) n

/-- The memory after an `n`-byte little-endian word was stored at `a`. -/
def writeLE (m : Mem) (a n v : ℕ) : Mem := fun x =>
  if a ≤ x ∧ x < a + n then UInt8.ofNat (v / 256 ^ (x - a)) else m x

/-- A read depends on the bytes of its word alone. -/
theorem readLE_congr {w : Mem} (h : ∀ x, a ≤ x → x < a + n → w x = m x) :
    readLE w a n = readLE m a n := by
  induction n generalizing a with
  | zero => rfl
  | succ n ih =>
    rw [readLE, readLE, h a le_rfl (by omega), ih fun x h1 h2 => h x (by omega) (by omega)]

/-- A word of `n` bytes is below `256 ^ n`. -/
theorem readLE_lt (m : Mem) (a n : ℕ) : readLE m a n < 256 ^ n := by
  induction n generalizing a with
  | zero => simp [readLE]
  | succ n ih =>
    have hb : (m a).toNat < 256 := (m a).toNat_lt
    have := ih (a + 1)
    rw [readLE, pow_succ]
    omega

/-- Outside its word a write changes nothing. -/
theorem writeLE_of_notMem {x : ℕ} (h : x < a ∨ a + n ≤ x) : writeLE m a n v x = m x := by
  rw [writeLE, if_neg (by omega)]

/-- **A write is not seen in a disjoint word.** -/
theorem readLE_writeLE_of_disjoint (h : a + n ≤ b ∨ b + k ≤ a) :
    readLE (writeLE m a n v) b k = readLE m b k :=
  readLE_congr fun _ _ _ => writeLE_of_notMem (by omega)

/-! ## Byte strings -/

/-- The bytes are at `a` and on. -/
def Holds (m : Mem) (a : ℕ) : List UInt8 → Prop
  | [] => True
  | byte :: bytes => m a = byte ∧ Holds m (a + 1) bytes

/-- The bytes of an `n`-byte little-endian word. -/
def bytesLE (n v : ℕ) : List UInt8 :=
  match n with
  | 0 => []
  | n + 1 => UInt8.ofNat v :: bytesLE n (v / 256)

@[simp] theorem length_bytesLE (n v : ℕ) : (bytesLE n v).length = n := by
  induction n generalizing v with
  | zero => rfl
  | succ n ih => rw [bytesLE, List.length_cons, ih]

theorem holds_append {xs ys : List UInt8} :
    m.Holds a (xs ++ ys) ↔ m.Holds a xs ∧ m.Holds (a + xs.length) ys := by
  induction xs generalizing a with
  | nil => simp [Holds]
  | cons x xs ih =>
    rw [List.cons_append, Holds, Holds, ih, List.length_cons, Nat.add_assoc, Nat.add_comm 1,
      and_assoc]

/-- The `n` bytes from `a` on. -/
def bytesAt (m : Mem) (a : ℕ) : ℕ → List UInt8
  | 0 => []
  | n + 1 => m a :: bytesAt m (a + 1) n

/-- A memory with given bytes at its start. -/
def ofBytes (bytes : List UInt8) : Mem := fun a => bytes.getD a 0

theorem holds_ofBytes (xs ys : List UInt8) : (ofBytes (xs ++ ys)).Holds xs.length ys := by
  induction ys generalizing xs with
  | nil => trivial
  | cons y ys ih =>
    refine ⟨by simp [ofBytes], ?_⟩
    have := ih (xs ++ [y])
    rwa [List.append_assoc, List.length_append] at this

theorem holds_zero_ofBytes (bytes : List UInt8) : (ofBytes bytes).Holds 0 bytes :=
  holds_ofBytes [] bytes

/-- **A word held is read.** -/
theorem readLE_of_holds (h : m.Holds a (bytesLE n v)) : readLE m a n = v % 256 ^ n := by
  induction n generalizing a v with
  | zero => simp [readLE, Nat.mod_one]
  | succ n ih =>
    rw [readLE, h.1, ih h.2, pow_succ', Nat.mod_mul]
    simp

theorem holds_bytesLE (h : ∀ x, a ≤ x → x < a + n → m x = UInt8.ofNat (v / 256 ^ (x - a))) :
    m.Holds a (bytesLE n v) := by
  induction n generalizing a v with
  | zero => trivial
  | succ n ih =>
    refine ⟨?_, ih fun x h1 h2 => ?_⟩
    · rw [h a le_rfl (by omega), Nat.sub_self, pow_zero, Nat.div_one]
    · rw [h x (by omega) (by omega), Nat.div_div_eq_div_mul, ← pow_succ',
        show x - (a + 1) + 1 = x - a by omega]

/-- **A write is read back**, as far as the word is wide. -/
theorem readLE_writeLE_self (m : Mem) (a n v : ℕ) : readLE (writeLE m a n v) a n = v % 256 ^ n :=
  readLE_of_holds (holds_bytesLE fun _ h1 h2 => if_pos ⟨h1, h2⟩)

end Mem

end YontiOs
