import YontiOs.Task.ArrayQueue

/-!
# Task/Slots — which slots of the ring buffer collide

A counter is reduced modulo `2 ^ 64` before it is reduced modulo the capacity.  Where the counters
wrap, the slots jump by `2 ^ 64 % capacity`, and two elements that far apart, one on each side of
the wrap, share a slot (`slot_eq_iff`).  So unread elements are all in different slots just when
none are that far apart across the wrap (`slots_distinct_iff`); the queues of the kernel have 100
slots, and a jump of 16.
-/

namespace YontiOs.ArrayQueue

variable {α : Type*} {q : ArrayQueue α} {i j : ℕ}

/-- By how much the slots jump where a counter wraps. -/
def jump (q : ArrayQueue α) : ℕ := 2 ^ 64 % q.capacity

/-- The counters from `head` to `tail` do not wrap in between. -/
def Contiguous (q : ArrayQueue α) : Prop := q.head.toNat + q.len ≤ 2 ^ 64

instance (q : ArrayQueue α) : Decidable q.Contiguous := inferInstanceAs (Decidable (_ ≤ _))

/-- The slot of an unread element, by its count. -/
theorem slot_head_add (hi : i ≤ q.len) : q.slot (q.head + BitVec.ofNat 64 i) =
    (if q.head.toNat + i < 2 ^ 64 then q.head.toNat + i else q.head.toNat + i - 2 ^ 64) %
      q.capacity := by
  have hlt : i < 2 ^ 64 := hi.trans_lt (q.tail - q.head).isLt
  have hhead := q.head.isLt
  rw [slot, BitVec.toNat_add, BitVec.toNat_ofNat, Nat.mod_eq_of_lt hlt]
  congr 1
  split_ifs with hwrap
  · exact Nat.mod_eq_of_lt hwrap
  · rw [Nat.mod_eq_sub_mod (not_lt.mp hwrap), Nat.mod_eq_of_lt (by omega)]

/-- **Two elements share a slot** when they are a jump apart, on the two sides of the wrap. -/
theorem slot_eq_iff (hij : i < j) (hj : j ≤ q.len) (hlt : j < i + q.capacity) :
    q.slot (q.head + BitVec.ofNat 64 i) = q.slot (q.head + BitVec.ofNat 64 j) ↔
      q.head.toNat + i < 2 ^ 64 ∧ 2 ^ 64 ≤ q.head.toNat + j ∧ j - i = q.jump := by
  have hcap := q.capacity_lt
  rw [slot_head_add (hij.le.trans hj), slot_head_add hj]
  split_ifs with hi hj' hj'
  · refine iff_of_false (mod_ne_of_lt (by omega) (by omega)) fun h => ?_
    omega
  · -- both say that the capacity divides `2 ^ 64 - (j - i)`
    have hslots : q.head.toNat + j - 2 ^ 64 ≡ q.head.toNat + i [MOD q.capacity] ↔
        q.capacity ∣ 2 ^ 64 - (j - i) := by
      rw [Nat.modEq_iff_dvd' (by omega),
        show q.head.toNat + i - (q.head.toNat + j - 2 ^ 64) = 2 ^ 64 - (j - i) by omega]
    have hjump : j - i ≡ 2 ^ 64 [MOD q.capacity] ↔ q.capacity ∣ 2 ^ 64 - (j - i) :=
      Nat.modEq_iff_dvd' (by omega)
    rw [Nat.ModEq, Nat.mod_eq_of_lt (show j - i < q.capacity by omega)] at hjump
    rw [and_iff_right hi, and_iff_right (not_lt.mp hj'), jump, hjump, ← hslots]
    exact eq_comm
  · omega
  · refine iff_of_false (mod_ne_of_lt (by omega) (by omega)) fun h => ?_
    omega

/-- **The slot of the next push is that of an unread element** when the counters have wrapped and
the jump leads from `tail` back over the wrap, but not over `head`. -/
theorem slot_tail_eq_iff (hlen : q.len < q.capacity) :
    (∃ i < q.len, q.slot (q.head + BitVec.ofNat 64 i) = q.slot q.tail) ↔
      2 ^ 64 ≤ q.head.toNat + q.len ∧ q.tail.toNat < q.jump ∧ q.jump ≤ q.len := by
  have htail : 2 ^ 64 ≤ q.head.toNat + q.len → q.tail.toNat = q.head.toNat + q.len - 2 ^ 64 := by
    rw [len]
    bv_omega
  rw [← head_add_len q]
  constructor
  · rintro ⟨i, hi, hslot⟩
    obtain ⟨h1, h2, h3⟩ := (slot_eq_iff hi le_rfl (by omega)).mp hslot
    rw [head_add_len, htail h2]
    omega
  · rintro ⟨h1, h2, h3⟩
    rw [head_add_len, htail h1] at h2
    refine ⟨q.len - q.jump, by omega, (slot_eq_iff (by omega) le_rfl (by omega)).mpr ?_⟩
    omega

/-- **Unread elements are in different slots** just when the counters do not wrap between them, the
capacity divides `2 ^ 64`, or there are at most as many as the slots jump by.  A push that is taken
writes a slot that no unread element is in, and so appends, unless it comes after the wrap, less
than a jump, with `head` at least a jump behind. -/
theorem slots_distinct_iff (q : ArrayQueue α) :
    ((∀ i < q.len, ∀ j < q.len, q.slot (q.head + BitVec.ofNat 64 i) =
        q.slot (q.head + BitVec.ofNat 64 j) → i = j) ↔
      q.Contiguous ∨ q.capacity ∣ 2 ^ 64 ∨ q.len ≤ q.jump) ∧
    ∀ v q', q.push v = some q' → q.len < q.capacity →
      ((∀ i < q.len, q.slot (q.head + BitVec.ofNat 64 i) ≠ q.slot q.tail) ↔
        ¬ (2 ^ 64 ≤ q.head.toNat + q.len ∧ q.tail.toNat < q.jump ∧ q.jump ≤ q.len)) ∧
      (¬ (2 ^ 64 ≤ q.head.toNat + q.len ∧ q.tail.toNat < q.jump ∧ q.jump ≤ q.len) →
        q'.unread = q.unread ++ [some v]) := by
  have hle : q.len ≤ q.capacity := q.len_le
  have hhead := q.head.isLt
  refine ⟨⟨fun hdistinct => ?_, ?_⟩, fun v q' hq hroom => ?_⟩
  · -- a jump over the wrap between two unread elements
    by_contra hno
    simp only [not_or, Contiguous, Nat.dvd_iff_mod_eq_zero] at hno
    rw [← jump] at hno
    obtain ⟨i, hi1, hi2, hi3⟩ : ∃ i, q.head.toNat + i < 2 ^ 64 ∧
        2 ^ 64 ≤ q.head.toNat + (i + q.jump) ∧ i + q.jump < q.len :=
      ⟨2 ^ 64 - q.head.toNat - q.jump, by omega, by omega, by omega⟩
    have heq := hdistinct i (by omega) (i + q.jump) hi3
      ((slot_eq_iff (by omega) hi3.le (by omega)).mpr ⟨hi1, hi2, by omega⟩)
    omega
  · intro hcases
    -- two elements in one slot are a jump apart, on the two sides of the wrap
    have hlt : ∀ i j, i < j → j < q.len →
        q.slot (q.head + BitVec.ofNat 64 i) ≠ q.slot (q.head + BitVec.ofNat 64 j) := by
      intro i j hij hj hslot
      obtain ⟨h1, h2, h3⟩ := (slot_eq_iff hij hj.le (by omega)).mp hslot
      rcases hcases with hc | hc | hc
      · rw [Contiguous] at hc
        omega
      · rw [Nat.dvd_iff_mod_eq_zero, ← jump] at hc
        omega
      · omega
    intro i hi j hj hslot
    rcases Nat.lt_trichotomy i j with h | h | h
    · exact absurd hslot (hlt i j h hj)
    · exact h
    · exact absurd hslot.symm (hlt j i h hi)
  · have hiff : (∀ i < q.len, q.slot (q.head + BitVec.ofNat 64 i) ≠ q.slot q.tail) ↔
        ¬ (2 ^ 64 ≤ q.head.toNat + q.len ∧ q.tail.toNat < q.jump ∧ q.jump ≤ q.len) := by
      rw [← slot_tail_eq_iff hroom]
      push Not
      rfl
    have hlen : q.len + 1 < 2 ^ 64 := by have := q.capacity_lt; omega
    exact ⟨hiff, fun h => unread_push_of_ne hlen hq (hiff.mpr h)⟩

/-- Unread elements on both sides of the wrap, each named by its slot. -/
def acrossWrap (capacity before after : ℕ) (h : 0 < capacity ∧ capacity < 2 ^ 63)
    (hlen : (BitVec.ofNat 64 after - -BitVec.ofNat 64 before).toNat ≤ capacity) : ArrayQueue ℕ :=
  ⟨-BitVec.ofNat 64 before, BitVec.ofNat 64 after, some, capacity, h.1, h.2.trans (by decide),
    fun _ => h.2, hlen⟩

/-- With 64 slots nothing jumps. -/
theorem slots_distinct_iff_sixtyFour :
    let q := acrossWrap 64 10 30 (by decide) (by decide)
    q.len = 40 ∧ (∀ i < 40, ∀ j < 40, q.slot (q.head + BitVec.ofNat 64 i) =
      q.slot (q.head + BitVec.ofNat 64 j) → i = j) ∧
      ∃ q', q.push 7 = some q' ∧ q'.unread = q.unread ++ [some 7] := by
  intro q
  have hlen : q.len = 40 := by decide
  obtain ⟨hdistinct, hpush⟩ := slots_distinct_iff q
  rw [hlen] at hdistinct
  obtain ⟨q', hq'⟩ : ∃ q', q.push 7 = some q' := Option.isSome_iff_exists.mp (by decide)
  exact ⟨hlen, hdistinct.mpr (.inr (.inl (by decide))), q', hq',
    (hpush 7 q' hq' (by decide)).2 (by decide)⟩

/-- **A push hits the oldest unread element**: of 100 slots, 16 are in use. -/
theorem push_overwrites_oldest :
    let q := acrossWrap 100 10 6 (by decide) (by decide)
    q.len = 16 ∧ q.unread.head? = some (some 6) ∧ ∃ q', q.push 777 = some q' ∧ q'.len = 17 ∧
      q'.slot q'.head = q'.slot (q'.head + BitVec.ofNat 64 16) ∧
      q'.unread.head? = some (some 777) ∧ some 6 ∉ q'.unread := by
  intro q
  have hgo : (q.push 777).any (fun q' => q'.len == 17 &&
      q'.slot q'.head == q'.slot (q'.head + BitVec.ofNat 64 16) &&
      q'.unread.head? == some (some 777) && !q'.unread.contains (some 6)) = true := by
    decide +kernel
  simp only [Option.any_eq_true, Bool.and_eq_true, beq_iff_eq, Bool.not_eq_true',
    List.contains_eq_mem, decide_eq_false_iff_not] at hgo
  obtain ⟨q', hq', ⟨⟨hlen, hslot⟩, hhead⟩, hlost⟩ := hgo
  exact ⟨by decide, by decide, q', hq', hlen, hslot, hhead, hlost⟩

end YontiOs.ArrayQueue
