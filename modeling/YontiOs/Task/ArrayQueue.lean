import Mathlib

/-!
# Task/ArrayQueue — the bounded ring buffer, with its wrapping counters

`head` and `tail` count pops and pushes modulo `2 ^ 64`, and an element sits in the slot its count
has modulo the capacity.  `unread` is what a run of pops would return.

A capacity need not divide `2 ^ 64`, and then the slots jump when `tail` wraps: a push may hit the
slot of an element that is still unread.  `mem_unread_push` says exactly what is left after a push;
before the counters wrap a push only adds (`Unwrapped.mem_push`).
-/

namespace YontiOs

/-- `ArrayQueue<T>`: an uninitialised slot is `none`.  The buffer is a slice, so elements that take
up space, as those of a type with two values do, bound the capacity further. -/
structure ArrayQueue (α : Type*) where
  head : BitVec 64
  tail : BitVec 64
  buffer : ℕ → Option α
  capacity : ℕ
  capacity_pos : 0 < capacity
  capacity_lt : capacity < 2 ^ 64
  slice_lt : Nontrivial α → capacity < 2 ^ 63
  len_le : (tail - head).toNat ≤ capacity

namespace ArrayQueue

variable {α : Type*} {q q' : ArrayQueue α} {v a : α} {o : Option α} {n : ℕ}

/-- `ArrayQueue::new(capacity)`. -/
def new (capacity : ℕ) (hpos : 0 < capacity) (hlt : capacity < 2 ^ 64)
    (hslice : Nontrivial α → capacity < 2 ^ 63) : ArrayQueue α :=
  ⟨0, 0, fun _ => none, capacity, hpos, hlt, hslice, Nat.zero_le _⟩

/-- The slot of the element with count `i`. -/
def slot (q : ArrayQueue α) (i : BitVec 64) : ℕ := i.toNat % q.capacity

/-- `push(value)`: `none` is `Err(value)`. -/
def push (q : ArrayQueue α) (value : α) : Option (ArrayQueue α) :=
  let nextTail := q.tail + 1
  if h : (nextTail - q.head).toNat ≤ q.capacity then
    some { q with
      buffer := Function.update q.buffer (q.slot q.tail) (some value)
      tail := nextTail
      len_le := h }
  else none

/-- How many elements are unread. -/
def len (q : ArrayQueue α) : ℕ := (q.tail - q.head).toNat

theorem len_eq_zero : q.len = 0 ↔ q.head = q.tail := by
  rw [len]
  bv_omega

/-- One pop fewer is left than there were elements. -/
theorem len_pop (h : q.head ≠ q.tail) : (q.tail - (q.head + 1)).toNat + 1 = q.len := by
  rw [len]
  bv_omega

/-- `pop()`: `none` is `Err(PopError)`; the value is `none` where the slot was never written.  The
slot keeps its bytes. -/
def pop (q : ArrayQueue α) : Option (Option α × ArrayQueue α) :=
  if h : q.head = q.tail then none
  else some (q.buffer (q.slot q.head),
    { q with
      head := q.head + 1
      len_le := (Nat.le_succ _).trans ((len_pop h).trans_le q.len_le) })

def isEmpty (q : ArrayQueue α) : Bool := q.head == q.tail

/-- The elements a run of pops would return. -/
def unread (q : ArrayQueue α) : List (Option α) :=
  (List.range q.len).map fun i => q.buffer (q.slot (q.head + BitVec.ofNat 64 i))

/-- An unread copy of `a` is in another slot than the next push writes. -/
def Keeps (q : ArrayQueue α) (a : α) : Prop :=
  ∃ i < q.len, q.buffer (q.slot (q.head + BitVec.ofNat 64 i)) = some a ∧
    q.slot (q.head + BitVec.ofNat 64 i) ≠ q.slot q.tail

instance [DecidableEq α] (q : ArrayQueue α) (a : α) : Decidable (q.Keeps a) :=
  inferInstanceAs (Decidable (∃ i < q.len, _ ∧ _))

/-! ## Emptiness and pops -/

theorem unread_eq_nil : q.unread = [] ↔ q.head = q.tail := by
  rw [unread, List.map_eq_nil_iff, List.range_eq_nil, len_eq_zero]

theorem isEmpty_iff : q.isEmpty = true ↔ q.unread = [] := by
  rw [isEmpty, beq_iff_eq, unread_eq_nil]

theorem pop_eq_none : q.pop = none ↔ q.unread = [] := by
  rw [pop, unread_eq_nil]
  split_ifs with h <;> simp [h]

/-- What a pop that succeeds does. -/
theorem pop_eq_some (h : q.pop = some (o, q')) : q.head ≠ q.tail ∧ o = q.buffer (q.slot q.head) ∧
    q'.head = q.head + 1 ∧ q'.tail = q.tail ∧ q'.capacity = q.capacity ∧
    q'.buffer = q.buffer := by
  rw [pop] at h
  split_ifs at h with hne
  obtain ⟨rfl, rfl⟩ := Prod.mk.inj (Option.some.inj h)
  exact ⟨hne, rfl, rfl, rfl, rfl, rfl⟩

/-- **A pop returns the first unread element.** -/
theorem unread_pop (h : q.pop = some (o, q')) : q.unread = o :: q'.unread := by
  rw [pop] at h
  split_ifs at h with hne
  obtain ⟨rfl, rfl⟩ := Prod.mk.inj (Option.some.inj h)
  have hlen := len_pop hne
  rw [unread, ← hlen, List.range_succ_eq_map, List.map_cons, List.map_map]
  congr 1
  · simp
  · refine List.map_congr_left fun i _ => congrArg (fun c => q.buffer (q.slot c)) ?_
    simp only [Nat.succ_eq_add_one, BitVec.ofNat_add]
    bv_omega

/-! ## Pushes -/

/-- Where elements take up space, the counter of a full queue still has room for one more. -/
theorem len_succ_lt [hα : Nontrivial α] (q : ArrayQueue α) : q.len + 1 < 2 ^ 64 := by
  have h1 : q.len ≤ q.capacity := q.len_le
  have h2 := q.slice_lt hα
  omega

theorem toNat_next (hlen : q.len + 1 < 2 ^ 64) : (q.tail + 1 - q.head).toNat = q.len + 1 := by
  rw [len] at *
  bv_omega

/-- **A push is refused exactly when the buffer is full.** -/
theorem push_eq_none (hlen : q.len + 1 < 2 ^ 64) : q.push v = none ↔ q.len = q.capacity := by
  have hle : q.len ≤ q.capacity := q.len_le
  rw [push]
  split_ifs with h
  · rw [toNat_next hlen] at h
    simp only [false_iff]
    omega
  · rw [toNat_next hlen] at h
    simp only [true_iff]
    omega

/-- What a push that is taken writes. -/
theorem push_eq_some (h : q.push v = some q') : q'.head = q.head ∧ q'.tail = q.tail + 1 ∧
    q'.capacity = q.capacity ∧
    q'.buffer = Function.update q.buffer (q.slot q.tail) (some v) := by
  rw [push] at h
  split_ifs at h with hle
  obtain rfl := Option.some.inj h
  exact ⟨rfl, rfl, rfl, rfl⟩

theorem len_push (hlen : q.len + 1 < 2 ^ 64) (h : q.push v = some q') : q'.len = q.len + 1 := by
  obtain ⟨hhead, htail, -⟩ := push_eq_some h
  rw [len, hhead, htail, toNat_next hlen]

theorem len_lt_of_push (hlen : q.len + 1 < 2 ^ 64) (h : q.push v = some q') :
    q.len < q.capacity := by
  obtain ⟨-, -, hcap, -⟩ := push_eq_some h
  have hle : q'.len ≤ q'.capacity := q'.len_le
  rw [len_push hlen h, hcap] at hle
  exact hle

theorem head_add_len (q : ArrayQueue α) : q.head + BitVec.ofNat 64 q.len = q.tail := by
  rw [len]
  bv_omega

theorem unread_push_ne_nil (hlen : q.len + 1 < 2 ^ 64) (h : q.push v = some q') :
    q'.unread ≠ [] := fun hnil => by
  have hlen := len_push hlen h
  rw [len_eq_zero.mpr (unread_eq_nil.mp hnil)] at hlen
  omega

theorem slot_push (h : q.push v = some q') (i : BitVec 64) : q'.slot i = q.slot i := by
  obtain ⟨-, -, hcap, -⟩ := push_eq_some h
  rw [slot, slot, hcap]

/-- What a push leaves in the slot of count `i`: the new element where it hit the slot, what was
there where it did not. -/
theorem buffer_push (h : q.push v = some q') (i : ℕ) :
    (q.slot (q.head + BitVec.ofNat 64 i) = q.slot q.tail ∧
      q'.buffer (q'.slot (q'.head + BitVec.ofNat 64 i)) = some v) ∨
    (i ≠ q.len ∧ q.slot (q.head + BitVec.ofNat 64 i) ≠ q.slot q.tail ∧
      q'.buffer (q'.slot (q'.head + BitVec.ofNat 64 i)) =
        q.buffer (q.slot (q.head + BitVec.ofNat 64 i))) := by
  obtain ⟨hhead, -, -, hbuf⟩ := push_eq_some h
  rw [slot_push h, hhead, hbuf]
  by_cases hs : q.slot (q.head + BitVec.ofNat 64 i) = q.slot q.tail
  · exact .inl ⟨hs, by rw [hs, Function.update_self]⟩
  · refine .inr ⟨?_, hs, Function.update_of_ne hs _ _⟩
    rintro rfl
    exact hs (by rw [head_add_len])

/-- **What is unread after a push**: the new element, and the old ones whose slot it did not hit. -/
theorem mem_unread_push (hlen : q.len + 1 < 2 ^ 64) (h : q.push v = some q') :
    some a ∈ q'.unread ↔ a = v ∨ q.Keeps a := by
  simp only [unread, List.mem_map, List.mem_range, len_push hlen h]
  constructor
  · rintro ⟨i, hi, heq⟩
    rcases buffer_push h i with ⟨-, hv⟩ | ⟨hne, hs, hold⟩
    · exact .inl (Option.some.inj (heq.symm.trans hv))
    · exact .inr ⟨i, lt_of_le_of_ne (Nat.lt_succ_iff.mp hi) hne, hold.symm.trans heq, hs⟩
  · rintro (rfl | ⟨i, hi, heq, hs⟩)
    · refine ⟨q.len, Nat.lt_succ_self _, ?_⟩
      exact ((buffer_push h q.len).resolve_right fun hr => hr.1 rfl).2
    · refine ⟨i, Nat.lt_succ_of_lt hi, ?_⟩
      exact (((buffer_push h i).resolve_left fun hl => hs hl.1).2.2).trans heq

/-- **A push whose slot is free appends.** -/
theorem unread_push_of_ne (hlen : q.len + 1 < 2 ^ 64) (hq : q.push v = some q')
    (hne : ∀ i < q.len, q.slot (q.head + BitVec.ofNat 64 i) ≠ q.slot q.tail) :
    q'.unread = q.unread ++ [some v] := by
  rw [unread, len_push hlen hq, List.range_succ, List.map_append, List.map_singleton, unread]
  congr 1
  · refine List.map_congr_left fun i hi => ?_
    exact ((buffer_push hq i).resolve_left fun hl => hne i (List.mem_range.mp hi) hl.1).2.2
  · exact congrArg (fun o => [o]) ((buffer_push hq q.len).resolve_right fun hr => hr.1 rfl).2

/-- An element pushed onto an empty queue is the next one popped. -/
theorem pop_push (h : q.head = q.tail) (v : α) : ∃ q₁ q₂, q.push v = some q₁ ∧
    q₁.pop = some (some v, q₂) ∧ q₂.head = q.tail + 1 ∧ q₂.tail = q.tail + 1 ∧
    q₂.capacity = q.capacity := by
  have hzero := len_eq_zero.mpr h
  rcases hq : q.push v with _ | q₁
  · exact absurd (hzero.symm.trans ((push_eq_none (by omega)).mp hq)) q.capacity_pos.ne
  · obtain ⟨hhead, htail, hcap, hbuf⟩ := push_eq_some hq
    rcases hp : q₁.pop with _ | ⟨o, q₂⟩
    · have heq := unread_eq_nil.mp (pop_eq_none.mp hp)
      rw [hhead, htail, h] at heq
      bv_omega
    · obtain ⟨-, ho, hhead₂, htail₂, hcap₂, -⟩ := pop_eq_some hp
      refine ⟨q₁, q₂, rfl, ?_, by rw [hhead₂, hhead, h], htail₂.trans htail, hcap₂.trans hcap⟩
      have hslot : q₁.slot q₁.head = q.slot q.tail := by rw [slot, slot, hcap, hhead, h]
      rw [hp, ho, hbuf, hslot, Function.update_self]

/-- Fewer than `c` apart, different modulo `c`. -/
theorem mod_ne_of_lt {x y c : ℕ} (h1 : x < y) (h2 : y < x + c) : x % c ≠ y % c := by
  intro h
  have hdvd := (Nat.modEq_iff_dvd' h1.le).mp h
  have := Nat.le_of_dvd (by omega) hdvd
  omega

/-- After `n` pushes, none of the counters has wrapped. -/
structure Unwrapped (q : ArrayQueue α) (n : ℕ) : Prop where
  tail_eq : q.tail.toNat = n
  head_le : q.head.toNat ≤ q.tail.toNat

namespace Unwrapped

theorem new {c : ℕ} (hpos : 0 < c) (hlt : c < 2 ^ 64) (hslice : Nontrivial α → c < 2 ^ 63) :
    (ArrayQueue.new c hpos hlt hslice : ArrayQueue α).Unwrapped 0 := ⟨rfl, le_rfl⟩

theorem len_le (h : q.Unwrapped n) : q.len ≤ n := by
  obtain ⟨h1, h2⟩ := h
  rw [len]
  bv_omega

theorem push (h : q.Unwrapped n) (hn : n + 1 < 2 ^ 64) (hq : q.push v = some q') :
    q'.Unwrapped (n + 1) := by
  obtain ⟨hhead, htail, -⟩ := push_eq_some hq
  obtain ⟨h1, h2⟩ := h
  constructor <;> rw [htail] <;> try rw [hhead]
  all_goals bv_omega

theorem pop (h : q.Unwrapped n) (hq : q.pop = some (o, q')) : q'.Unwrapped n := by
  obtain ⟨hne, -, hhead, htail, -⟩ := pop_eq_some hq
  obtain ⟨h1, h2⟩ := h
  have hlt : q.head.toNat < q.tail.toNat :=
    lt_of_le_of_ne h2 fun heq => hne (BitVec.eq_of_toNat_eq heq)
  refine ⟨by rw [htail, h1], ?_⟩
  rw [hhead, htail]
  bv_omega

/-- **Before the counters wrap** elements fewer than the capacity apart are in different slots. -/
theorem slot_ne (h : q.Unwrapped n) {i j : ℕ} (hij : i < j) (hj : j ≤ q.len)
    (hlt : j < i + q.capacity) :
    q.slot (q.head + BitVec.ofNat 64 i) ≠ q.slot (q.head + BitVec.ofNat 64 j) := by
  obtain ⟨h1, h2⟩ := h
  refine mod_ne_of_lt ?_ ?_
  all_goals
    rw [len] at *
    bv_omega

/-- So a push hits no unread element. -/
theorem keeps (h : q.Unwrapped n) (hlt : q.len < q.capacity) (ha : some a ∈ q.unread) :
    q.Keeps a := by
  simp only [unread, List.mem_map, List.mem_range] at ha
  obtain ⟨i, hi, heq⟩ := ha
  refine ⟨i, hi, heq, ?_⟩
  have hne := h.slot_ne hi le_rfl (by omega)
  rwa [head_add_len] at hne

theorem mem_push (h : q.Unwrapped n) (hn : n + 1 < 2 ^ 64) (hq : q.push v = some q')
    (ha : some a ∈ q.unread) : some a ∈ q'.unread := by
  have hlen : q.len + 1 < 2 ^ 64 := by have := h.len_le; omega
  exact (mem_unread_push hlen hq).mpr (.inr (h.keeps (len_lt_of_push hlen hq) ha))

end Unwrapped

end ArrayQueue

end YontiOs
