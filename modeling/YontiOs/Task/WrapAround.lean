import YontiOs.Task.Keyboard

/-!
# Task/WrapAround — the reader's wake-up and the counters of the task queue

As long as the counters of the task queue have not wrapped no wake overwrites another one, and no
keyboard wake-up is lost (`noLostWake_of_length_lt`).  The queue has 100 slots, and 100 does not
divide `2 ^ 64`: where the counters wrap, the wakes of another task hit the slot of the reader's
entry, with 16 of the 100 slots in use (`keyboard_wake_overwritten`).
-/

namespace YontiOs.Task.Kernel

variable {reader id : TaskId} {k k' : Kernel} {e : Event} {events : List Event} {n : ℕ}

/-! ## Before the counters wrap -/

/-- At most one push or one pop takes the first queue to the second. -/
def Edits (q q' : ArrayQueue TaskId) : Prop :=
  q' = q ∨ (∃ v, q.push v = some q') ∨ ∃ o, q.pop = some (o, q')

theorem edits_wakeTask (ex : Executor) (id : TaskId) :
    Edits ex.taskQueue (ex.wakeTask id).taskQueue := by
  rw [Executor.wakeTask]
  rcases hq : ex.taskQueue.push id with _ | q
  · exact .inl rfl
  · exact .inr (.inl ⟨id, hq⟩)

theorem edits_addScancode (scancode : UInt8) :
    Edits k.executor.taskQueue (k.addScancode scancode).executor.taskQueue := by
  rw [addScancode]
  split
  · exact .inl rfl
  · split
    · exact .inl rfl
    · rw [wakeReader]
      split
      · exact .inl rfl
      · exact edits_wakeTask _ _

theorem edits_loop (reader : TaskId) (e : Event) (hstep : k.loop reader e = some k') :
    Edits k.executor.taskQueue k'.executor.taskQueue := by
  cases e <;> rw [loop] at hstep
  case spawn id =>
    split_ifs at hstep
    obtain ⟨ex, hex, hk'⟩ := Option.bind_eq_some_iff.mp hstep
    obtain rfl := Option.some.inj hk'
    rw [Executor.spawn] at hex
    split_ifs at hex
    obtain ⟨q, hq, hex⟩ := Option.bind_eq_some_iff.mp hex
    obtain rfl := Option.some.inj hex
    exact .inr (.inl ⟨id, hq⟩)
  case pop =>
    split_ifs at hstep
    split at hstep
    · obtain rfl := Option.some.inj hstep
      exact .inl rfl
    · cases hstep
    · rename_i hpop
      obtain rfl := Option.some.inj hstep
      exact .inr (.inr ⟨_, hpop⟩)
  case begin =>
    split at hstep
    · split_ifs at hstep <;> (obtain rfl := Option.some.inj hstep; exact .inl rfl)
    · cases hstep
  case finish done =>
    split at hstep
    · obtain rfl := Option.some.inj hstep
      cases done <;> exact .inl rfl
    · cases hstep
  case run | disable | check =>
    split_ifs at hstep
    all_goals
      obtain rfl := Option.some.inj hstep
      exact .inl rfl
  all_goals cases hstep

/-- **What a step does to the task queue**: at most one push or one pop. -/
theorem edits_step (hstep : k.step reader e = some k') :
    Edits k.executor.taskQueue k'.executor.taskQueue := by
  cases e with
  | consume =>
    obtain ⟨-, ⟨-, hexec, -⟩ | ⟨-, -, rfl⟩⟩ := consume_cases hstep
    · exact .inl (by rw [hexec])
    · exact .inl rfl
  | wake id =>
    dsimp only [step] at hstep
    split_ifs at hstep
    obtain rfl := Option.some.inj hstep
    exact edits_wakeTask _ _
  | key scancode =>
    dsimp only [step] at hstep
    split_ifs at hstep
    obtain rfl := Option.some.inj hstep
    exact edits_addScancode scancode
  | interrupt =>
    dsimp only [step] at hstep
    split_ifs at hstep
    obtain rfl := Option.some.inj hstep
    exact .inl rfl
  | spawn id => exact edits_loop reader (.spawn id) hstep
  | run => exact edits_loop reader .run hstep
  | pop => exact edits_loop reader .pop hstep
  | begin => exact edits_loop reader .begin hstep
  | finish done => exact edits_loop reader (.finish done) hstep
  | disable => exact edits_loop reader .disable hstep
  | check => exact edits_loop reader .check hstep

theorem Edits.unwrapped {q q' : ArrayQueue TaskId} (h : Edits q q') (hq : q.Unwrapped n)
    (hn : n + 1 < 2 ^ 64) : ∃ m ≤ n + 1, q'.Unwrapped m := by
  rcases h with rfl | ⟨v, hpush⟩ | ⟨o, hpop⟩
  · exact ⟨n, Nat.le_succ n, hq⟩
  · exact ⟨n + 1, le_rfl, hq.push hn hpush⟩
  · exact ⟨n, Nat.le_succ n, hq.pop hpop⟩

/-- Before the counters wrap every event spares the reader's entry. -/
theorem Inv.spares (h : Inv reader k) (hq : k.executor.taskQueue.Unwrapped n)
    (hroom : k.Allowed e) : k.Spares reader e := by
  cases e with
  | wake id => exact fun hs hsc hpop => .inr (hq.keeps (hroom trivial) (h.mem hpop hs hsc))
  | _ => trivial

/-- **No keyboard wake-up is lost in a run of fewer than `2 ^ 64` events.** -/
theorem noLostWake_of_length_lt (hrun : Run (step reader) Allowed start events k)
    (hlt : events.length < 2 ^ 64) : NoLostWake reader k := by
  suffices ∀ {k₀ : Kernel} {n : ℕ}, Run (step reader) Allowed k₀ events k → Inv reader k₀ →
      k₀.executor.taskQueue.Unwrapped n → n + events.length < 2 ^ 64 → Inv reader k from
    (this hrun inv_start (.new _ _ _) (by omega)).noLostWake
  clear hrun hlt
  intro k₀ n hrun
  induction hrun generalizing n with
  | nil => exact fun h _ _ => h
  | cons hok hstep _ ih =>
    intro h hq hlt
    rw [List.length_cons] at hlt
    obtain ⟨m, hm, hq'⟩ := (edits_step hstep).unwrapped hq (by omega)
    exact ih (h.step hok (h.spares hq hok) hstep) hq' (by omega)

/-! ## Where the counters wrap

Task 0 is the reader, suspended; task 1 wakes itself in each of its polls. -/

/-- The reader waits for a scancode, task 1 is polled, and the queue is empty after `n` pushes. -/
structure Spinning (n : ℕ) (k : Kernel) : Prop where
  tasks : 1 ∈ k.executor.tasks
  head_eq : k.executor.taskQueue.head = BitVec.ofNat 64 n
  tail_eq : k.executor.taskQueue.tail = BitVec.ofNat 64 n
  capacity : k.executor.taskQueue.capacity = maxTasks
  pc : k.pc = .polling 1
  suspended : k.suspended = true
  waker : k.waker = some 0
  scancodes : ∃ queue ∈ k.scancodes, queue.len < queue.capacity

/-- Both tasks are polled once. -/
def pollBoth : List Event :=
  [.spawn 0, .spawn 1, .run, .pop, .begin, .consume, .consume, .consume, .consume, .pop, .begin]

theorem spinning_pollBoth : ∃ k, Run (step 0) Allowed start pollBoth k ∧ k.Spinning 2 := by
  have hgo : ((runFrom (step 0) Allowed start pollBoth).any fun k =>
      decide (1 ∈ k.executor.tasks) && decide (k.executor.taskQueue.head = 2) &&
        decide (k.executor.taskQueue.tail = 2) &&
        decide (k.executor.taskQueue.capacity = maxTasks) && decide (k.pc = .polling 1) &&
        k.suspended && decide (k.waker = some 0) &&
        k.scancodes.any fun queue => decide (queue.len < queue.capacity)) = true := by
    decide +kernel
  simp only [Option.any_eq_true, Bool.and_eq_true, decide_eq_true_eq] at hgo
  obtain ⟨k, hk, ⟨⟨⟨⟨⟨⟨htask, hhead⟩, htail⟩, hcap⟩, hpc⟩, hsus⟩, hwaker⟩, queue, hqueue, hlen⟩ :=
    hgo
  exact ⟨k, .of_runFrom hk, htask, hhead, htail, hcap, hpc, hsus, hwaker, queue, hqueue, hlen⟩

/-- Task 1 wakes itself and is polled again. -/
def oneTurn : List Event := [.wake 1, .finish false, .pop, .begin]

theorem Spinning.allowed (h : k.Spinning n) (e : Event) : k.Allowed e := fun _ => by
  rw [ArrayQueue.len_eq_zero.mpr (h.head_eq.trans h.tail_eq.symm)]
  exact k.executor.taskQueue.capacity_pos

/-- A wake in the poll of a task. -/
theorem step_wake {q : ArrayQueue TaskId} {id id' : TaskId}
    (hpush : k.executor.taskQueue.push id = some q) (hpc : k.pc = .polling id') :
    k.step reader (.wake id) = some { k with executor := { k.executor with taskQueue := q } } := by
  dsimp only [step, resume]
  rw [if_neg (by simp [hpc]), if_neg (by simp [hpc]), Executor.wakeTask, hpush]

/-- One turn of task 1 takes one push. -/
theorem Spinning.turn (h : k.Spinning n) :
    ∃ k', Run (step 0) Allowed k oneTurn k' ∧ k'.Spinning (n + 1) := by
  obtain ⟨q₁, q₂, hpush, hpop, hhead, htail, hcap⟩ :=
    ArrayQueue.pop_push (h.head_eq.trans h.tail_eq.symm) 1
  refine ⟨{ k with executor := { k.executor with taskQueue := q₂ }, pc := .polling 1 },
    .cons (h.allowed _) (?_ : k.step 0 (.wake 1) =
      some { k with executor := { k.executor with taskQueue := q₁ } }) <|
    .cons nofun (?_ : step 0 _ (.finish false) =
      some { k with executor := { k.executor with taskQueue := q₁ }, pc := .ready }) <|
    .cons nofun (?_ : step 0 _ .pop =
      some { k with executor := { k.executor with taskQueue := q₂ }, pc := .popped 1 }) <|
    .cons nofun ?_ <| .nil _, ?_⟩
  · exact step_wake hpush h.pc
  · dsimp only [step, loop]
    rw [h.pc]
    rfl
  · dsimp only [step, loop]
    rw [if_pos rfl, hpop]
  · dsimp only [step, loop]
    rw [if_neg (not_not.mpr h.tasks), if_neg one_ne_zero]
  · have hnext : BitVec.ofNat 64 n + 1 = BitVec.ofNat 64 (n + 1) := (BitVec.ofNat_add ..).symm
    rw [h.tail_eq, hnext] at hhead htail
    exact ⟨h.tasks, hhead, htail, hcap.trans h.capacity, rfl, h.suspended, h.waker, h.scancodes⟩

/-- Task 1 goes on for `m` turns. -/
theorem Spinning.turns (h : k.Spinning n) (m : ℕ) :
    ∃ k', Run (step 0) Allowed k (List.replicate m oneTurn).flatten k' ∧ k'.Spinning (n + m) := by
  induction m generalizing k n with
  | zero => exact ⟨k, .nil k, h⟩
  | succ m ih =>
    obtain ⟨k₁, hrun, h₁⟩ := h.turn
    obtain ⟨k₂, hrun₂, h₂⟩ := ih h₁
    refine ⟨k₂, ?_, ?_⟩
    · rw [List.replicate_succ, List.flatten_cons]
      exact hrun.append hrun₂
    · rwa [Nat.add_right_comm] at h₂

/-- The reader is woken at count `2 ^ 64 - 5`, in slot 11, and `m` entries are queued since; no
other slot has an entry of the reader. -/
structure Woken (m : ℕ) (k : Kernel) : Prop where
  len_eq : k.executor.taskQueue.len = m
  head_eq : k.executor.taskQueue.head = BitVec.ofNat 64 (2 ^ 64 - 5)
  capacity : k.executor.taskQueue.capacity = maxTasks
  only : ∀ i < k.executor.taskQueue.len, k.executor.taskQueue.buffer
    (k.executor.taskQueue.slot (k.executor.taskQueue.head + BitVec.ofNat 64 i)) = some 0 →
    k.executor.taskQueue.slot (k.executor.taskQueue.head + BitVec.ofNat 64 i) = 11
  pc : k.pc = .polling 1
  suspended : k.suspended = true
  hasScancode : k.HasScancode

/-- The scancode comes. -/
theorem Spinning.key (h : k.Spinning (2 ^ 64 - 5)) (scancode : UInt8) :
    ∃ k', k.step 0 (.key scancode) = some k' ∧ k'.Woken 1 := by
  obtain ⟨queue, hqueue, hroom⟩ := h.scancodes
  rcases hq : queue.push scancode with _ | queue'
  · exact absurd ((ArrayQueue.push_eq_none (ArrayQueue.len_succ_lt _)).mp hq) hroom.ne
  rcases hpush : k.executor.taskQueue.push 0 with _ | q
  · exact absurd ((ArrayQueue.push_eq_none (ArrayQueue.len_succ_lt _)).mp hpush)
      (h.allowed (.wake 0) trivial).ne
  obtain ⟨hhead, -, hcap, -⟩ := ArrayQueue.push_eq_some hpush
  have hlen : q.len = 1 := by
    rw [ArrayQueue.len_push (ArrayQueue.len_succ_lt _) hpush, ArrayQueue.len_eq_zero.mpr
      (h.head_eq.trans h.tail_eq.symm)]
  have hadd : k.addScancode scancode = { k with
      executor := { k.executor with taskQueue := q }, scancodes := some queue',
      waker := none } := by
    rw [addScancode, show k.scancodes = some queue from hqueue]
    dsimp only
    rw [hq]
    dsimp only
    rw [wakeReader, h.waker]
    dsimp only
    rw [Executor.wakeTask, hpush]
  refine ⟨k.addScancode scancode, ?_, ?_⟩
  · dsimp only [step]
    rw [if_neg (by simp [h.pc]), resume_of_ne (by simp [hadd, h.pc])]
  · rw [hadd]
    refine ⟨hlen, hhead.trans h.head_eq, hcap.trans h.capacity, fun i hi _ => ?_, h.pc,
      h.suspended, queue', rfl, ArrayQueue.unread_push_ne_nil (ArrayQueue.len_succ_lt _) hq⟩
    dsimp only at hi ⊢
    obtain rfl : i = 0 := by omega
    rw [hhead, h.head_eq, ArrayQueue.slot, hcap, h.capacity]
    decide

/-- Another wake of task 1. -/
theorem Woken.wake {m : ℕ} (h : k.Woken m) (hm : m < maxTasks) :
    ∃ k', k.step 0 (.wake 1) = some k' ∧ k'.Woken (m + 1) := by
  rcases hpush : k.executor.taskQueue.push 1 with _ | q
  · have hfull := (ArrayQueue.push_eq_none (ArrayQueue.len_succ_lt _)).mp hpush
    rw [h.len_eq, h.capacity] at hfull
    exact absurd hfull hm.ne
  obtain ⟨hhead, -, hcap, -⟩ := ArrayQueue.push_eq_some hpush
  refine ⟨_, step_wake hpush h.pc, (ArrayQueue.len_push (ArrayQueue.len_succ_lt _) hpush).trans
    (by rw [h.len_eq]),
    hhead.trans h.head_eq, hcap.trans h.capacity, fun i hi h0 => ?_, h.pc, h.suspended,
    h.hasScancode⟩
  dsimp only at hi h0 ⊢
  rw [ArrayQueue.len_push (ArrayQueue.len_succ_lt _) hpush] at hi
  rcases ArrayQueue.buffer_push hpush i with ⟨-, h1⟩ | ⟨hne, -, hold⟩
  · exact nomatch h0.symm.trans h1
  · rw [ArrayQueue.slot_push hpush, hhead]
    exact h.only i (lt_of_le_of_ne (Nat.lt_succ_iff.mp hi) hne) (hold.symm.trans h0)

theorem Woken.wakes {m : ℕ} (h : k.Woken m) (j : ℕ) (hj : m + j ≤ maxTasks) :
    ∃ k', Run (step 0) Allowed k (List.replicate j (.wake 1)) k' ∧ k'.Woken (m + j) := by
  induction j generalizing k m with
  | zero => exact ⟨k, .nil k, h⟩
  | succ j ih =>
    obtain ⟨k₁, hstep, h₁⟩ := h.wake (by omega)
    obtain ⟨k₂, hrun, h₂⟩ := ih h₁ (by omega)
    refine ⟨k₂, .cons (fun _ => ?_) hstep hrun, ?_⟩
    · rw [h.len_eq, h.capacity]
      omega
    · rwa [Nat.add_right_comm] at h₂

/-- The wake at count 11 hits slot 11. -/
theorem Woken.overwritten (h : k.Woken 16) (hstep : k.step 0 (.wake 1) = some k') :
    some 0 ∉ k'.executor.taskQueue.unread := by
  dsimp only [step] at hstep
  split_ifs at hstep
  obtain rfl := Option.some.inj hstep
  have hroom : k.executor.taskQueue.len < k.executor.taskQueue.capacity := by
    rw [h.len_eq, h.capacity]
    decide
  have htail : k.executor.taskQueue.slot k.executor.taskQueue.tail = 11 := by
    rw [← ArrayQueue.head_add_len, h.len_eq, h.head_eq, ArrayQueue.slot, h.capacity]
    decide
  intro hmem
  rcases (mem_wakeTask hroom).mp hmem with h1 | ⟨i, hi, heq, hs⟩
  · exact absurd h1 one_ne_zero
  · exact hs ((h.only i hi heq).trans htail.symm)

/-- **A wake of the reader is overwritten**: with the reader suspended and a scancode waiting, task
1 wakes itself over the wrap-around of the counters, and the reader is no longer queued. -/
theorem keyboard_wake_overwritten : ∃ k,
    Run (step 0) Allowed start (pollBoth ++ (List.replicate (2 ^ 64 - 7) oneTurn).flatten ++
      .key 30 :: (List.replicate 15 (.wake 1) ++ [.wake 1])) k ∧
    k.suspended = true ∧ k.HasScancode ∧ some 0 ∉ k.executor.taskQueue.unread ∧
    k.pc = .polling 1 := by
  obtain ⟨k₁, hrun₁, h₁⟩ := spinning_pollBoth
  obtain ⟨k₂, hrun₂, h₂⟩ := h₁.turns (2 ^ 64 - 7)
  have h₂ : k₂.Spinning (2 ^ 64 - 5) := h₂
  obtain ⟨k₃, hstep₃, h₃⟩ := h₂.key 30
  obtain ⟨k₄, hrun₄, h₄⟩ := h₃.wakes 15 (by decide)
  obtain ⟨k₅, hstep₅, h₅⟩ := h₄.wake (by decide)
  have hroom : k₄.Allowed (.wake 1) := fun _ => by
    rw [h₄.len_eq, h₄.capacity]
    decide
  exact ⟨k₅, (hrun₁.append hrun₂).append <|
    .cons (h₂.allowed _) hstep₃ <| hrun₄.append <| .cons hroom hstep₅ <| .nil k₅,
    h₅.suspended, h₅.hasScancode, h₄.overwritten hstep₅, h₅.pc⟩

end YontiOs.Task.Kernel
