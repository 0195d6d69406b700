import YontiOs.Task.Executor

/-!
# Task/Keyboard — the scancode stream between the interrupt handler and its task

One processor runs the executor's loop; the keyboard interrupt may come between any two of its steps
while interrupts are enabled.  `Kernel.step` has every step of both: the loop of `run_ready_tasks`,
the poll of the task that reads scancodes (`poll_next`: pop, register, pop again, take), the sleep
with interrupts masked, and `add_scancode`.

A suspended reader with a scancode waiting is queued (`NoLostWake`) in every run in which no other
wake overwrites its queue entry, and in no other run (`no_lost_keyboard_wake`).
-/

namespace YontiOs.Task

def maxScancodes : ℕ := 100

/-- Where the processor is. -/
inductive Pc where
  /-- Before `run`, where tasks are spawned. -/
  | setup
  /-- `run_ready_tasks`, before `task_queue.pop()`. -/
  | ready
  /-- An id is popped, its poll has not begun. -/
  | popped (id : TaskId)
  /-- In the poll of a task that is not the reader. -/
  | polling (id : TaskId)
  /-- In the reader's first poll, before `ScancodeStream::new`. -/
  | create
  /-- `poll_next`, before the first pop. -/
  | first
  /-- The queue was empty; before `WAKER.register`. -/
  | register
  /-- Before the second pop. -/
  | second
  /-- The second pop returned a scancode; before `WAKER.take`. -/
  | take
  /-- The reader handles a scancode. -/
  | handle
  /-- `sleep_if_idle`, before interrupts are disabled. -/
  | idle
  /-- Interrupts are disabled, before `is_empty`. -/
  | masked
  /-- In `enable_and_hlt`. -/
  | halted
deriving DecidableEq, Repr

/-- The executor, the statics of the keyboard module, and whether the reader's last poll returned
`Pending` and no poll of it has begun since. -/
structure Kernel where
  executor : Executor
  scancodes : Option (ArrayQueue UInt8)
  waker : Option TaskId
  pc : Pc
  suspended : Bool

/-- What can happen next. -/
inductive Event where
  | spawn (id : TaskId)
  | run
  | pop
  | begin
  | consume
  | finish (done : Bool)
  | disable
  | check
  | wake (id : TaskId)
  | key (scancode : UInt8)
  | interrupt
deriving DecidableEq, Repr

namespace Kernel

def start : Kernel := ⟨.new, none, none, .setup, false⟩

/-- An interrupt ends the halt. -/
def resume (k : Kernel) : Kernel := { k with pc := if k.pc = .halted then .ready else k.pc }

/-- `WAKER.wake()`. -/
def wakeReader (k : Kernel) : Kernel :=
  match k.waker with
  | none => k
  | some id => { k with waker := none, executor := k.executor.wakeTask id }

/-- `add_scancode(scancode)`: nothing happens before the queue exists or when it is full. -/
def addScancode (k : Kernel) (scancode : UInt8) : Kernel :=
  match k.scancodes with
  | none => k
  | some queue =>
    match queue.push scancode with
    | none => k
    | some queue => wakeReader { k with scancodes := some queue }

/-- One step of the reader, whose id is `reader`. -/
def consume (reader : TaskId) (k : Kernel) : Option Kernel :=
  match k.pc, k.scancodes with
  | .create, none =>
    some { k with
      scancodes := some (.new maxScancodes (by decide) (by decide) (fun _ => by decide))
      pc := .first }
  | .first, some queue =>
    match queue.pop with
    | none => some { k with pc := .register }
    | some (none, _) => none
    | some (some _, queue) => some { k with scancodes := some queue, pc := .handle }
  | .register, _ => some { k with waker := some reader, pc := .second }
  | .second, some queue =>
    match queue.pop with
    | none => some { k with suspended := true, pc := .ready }
    | some (none, _) => none
    | some (some _, queue) => some { k with scancodes := some queue, pc := .take }
  | .take, _ => some { k with waker := none, pc := .handle }
  | .handle, _ => some { k with pc := .first }
  | _, _ => none

/-- One step of the executor's loop. -/
def loop (reader : TaskId) (k : Kernel) : Event → Option Kernel
  | .spawn id =>
    if k.pc = .setup then do some { k with executor := ← k.executor.spawn id } else none
  | .run => if k.pc = .setup then some { k with pc := .ready } else none
  | .pop =>
    if k.pc = .ready then
      match k.executor.taskQueue.pop with
      | none => some { k with pc := .idle }
      | some (none, _) => none
      | some (some id, q) =>
        some { k with executor := { k.executor with taskQueue := q }, pc := .popped id }
    else none
  | .begin =>
    match k.pc with
    | .popped id =>
      if id ∉ k.executor.tasks then some { k with pc := .ready }
      else if id = reader then
        some { k with suspended := false, pc := if k.scancodes.isNone then .create else .first }
      else some { k with pc := .polling id }
    | _ => none
  | .finish done =>
    match k.pc with
    | .polling id =>
      some { k with executor := if done then k.executor.remove id else k.executor, pc := .ready }
    | _ => none
  | .disable => if k.pc = .idle then some { k with pc := .masked } else none
  | .check =>
    if k.pc = .masked then
      some { k with pc := if k.executor.taskQueue.isEmpty then .halted else .ready }
    else none
  | _ => none

/-- **One step of the machine.**  Wakers are invoked and interrupts come anywhere, except where
interrupts are disabled. -/
def step (reader : TaskId) (k : Kernel) : Event → Option Kernel
  | .consume => k.consume reader
  | .wake id =>
    if k.pc = .masked then none else some { k with executor := k.executor.wakeTask id }.resume
  | .key scancode => if k.pc = .masked then none else some (k.addScancode scancode).resume
  | .interrupt => if k.pc = .masked then none else some k.resume
  | e => k.loop reader e

/-- A scancode waits for the reader. -/
def HasScancode (k : Kernel) : Prop := ∃ queue ∈ k.scancodes, queue.unread ≠ []

instance (k : Kernel) : Decidable k.HasScancode :=
  inferInstanceAs (Decidable (∃ queue ∈ k.scancodes, queue.unread ≠ []))

/-- The next event pushes a wake. -/
def Wakes (k : Kernel) : Event → Prop
  | .wake _ => True
  | .key scancode => k.waker.isSome ∧ ∃ queue ∈ k.scancodes, (queue.push scancode).isSome
  | _ => False

instance (k : Kernel) : ∀ e, Decidable (k.Wakes e)
  | .wake _ => inferInstanceAs (Decidable True)
  | .key scancode => inferInstanceAs (Decidable (k.waker.isSome ∧
      ∃ queue ∈ k.scancodes, (queue.push scancode).isSome))
  | .spawn _ | .run | .pop | .begin | .consume | .finish _ | .disable | .check | .interrupt =>
    inferInstanceAs (Decidable False)

/-- A wake finds room in the task queue. -/
def Allowed (k : Kernel) (e : Event) : Prop :=
  k.Wakes e → k.executor.taskQueue.len < k.executor.taskQueue.capacity

instance (k : Kernel) (e : Event) : Decidable (k.Allowed e) :=
  inferInstanceAs (Decidable (_ → _))

/-- **No wake of the reader is lost**: a suspended reader with a scancode waiting is queued, or is
popped for its next poll; and the processor does not halt on it. -/
structure NoLostWake (reader : TaskId) (k : Kernel) : Prop where
  queued : k.suspended = true → k.HasScancode →
    some reader ∈ k.executor.taskQueue.unread ∨ k.pc = .popped reader
  awake : k.pc = .halted → k.suspended = true → ¬ k.HasScancode

/-- A wake does not overwrite the last entry of a reader that waits for its poll. -/
def Spares (reader : TaskId) (k : Kernel) : Event → Prop
  | .wake id => k.suspended = true → k.HasScancode → k.pc ≠ .popped reader →
      id = reader ∨ k.executor.taskQueue.Keeps reader
  | _ => True

instance (reader : TaskId) (k : Kernel) : ∀ e, Decidable (k.Spares reader e)
  | .wake id => inferInstanceAs (Decidable (k.suspended = true → k.HasScancode →
      k.pc ≠ .popped reader → id = reader ∨ k.executor.taskQueue.Keeps reader))
  | .key _ | .spawn _ | .run | .pop | .begin | .consume | .finish _ | .disable | .check
  | .interrupt => inferInstanceAs (Decidable True)

/-! ## The invariant -/

end Kernel

/-- In the reader's poll. -/
def Pc.Reading : Pc → Prop
  | .create | .first | .register | .second | .take | .handle => True
  | _ => False

namespace Kernel

variable {reader id : TaskId} {k k' : Kernel} {e : Event} {events : List Event}

/-- What every run keeps.  The reader arms its waker before it suspends itself (`armed`, `second`),
so that the interrupt that brings a scancode queues it (`queued`). -/
structure Inv (reader : TaskId) (k : Kernel) : Prop where
  queued : k.suspended = true → k.HasScancode →
    some reader ∈ k.executor.taskQueue.unread ∨ k.pc = .popped reader
  waker_eq : ∀ id ∈ k.waker, id = reader
  armed : k.suspended = true → ¬ k.HasScancode → k.waker = some reader
  second : k.pc = .second → k.HasScancode ∨ k.waker = some reader
  running : k.pc = .setup ∨ k.pc.Reading → k.suspended = false
  present : k.suspended = true ∨ k.pc.Reading → reader ∈ k.executor.tasks
  other : k.pc ≠ .polling reader
  halted : k.pc = .halted → k.executor.taskQueue.unread = []

theorem Inv.noLostWake (h : Inv reader k) : NoLostWake reader k where
  queued := h.queued
  awake hpc hsus hsc := by
    rcases h.queued hsus hsc with hmem | hpop
    · rw [h.halted hpc] at hmem
      exact nomatch hmem
    · exact nomatch hpc.symm.trans hpop

theorem inv_start : Inv reader start where
  queued h := nomatch h
  waker_eq _ h := nomatch h
  armed h := nomatch h
  second h := nomatch h
  running _ := rfl
  present h := h.elim (fun h => nomatch h) fun h => h.elim
  other h := nomatch h
  halted h := nomatch h

/-! ## The reader's steps -/

/-- **What a step of the reader does**: the poll goes on, with the waker registered before the
second pop, or this pop finds nothing and the reader is suspended. -/
theorem consume_cases (h : k.consume reader = some k') : k.pc.Reading ∧
    ((k'.pc.Reading ∧ k'.executor = k.executor ∧ k'.suspended = k.suspended ∧
        (∀ id ∈ k'.waker, id = reader ∨ id ∈ k.waker) ∧
        (k'.pc = .second → k'.waker = some reader)) ∨
      (k.pc = .second ∧ ¬ k.HasScancode ∧ k' = { k with suspended := true, pc := .ready })) := by
  rw [consume] at h
  split at h
  case h_1 hpc _ =>
    obtain rfl := Option.some.inj h
    exact ⟨by simp [hpc, Pc.Reading], .inl ⟨trivial, rfl, rfl, fun _ => .inr, nofun⟩⟩
  case h_2 queue hpc _ =>
    refine ⟨by simp [hpc, Pc.Reading], .inl ?_⟩
    split at h
    · obtain rfl := Option.some.inj h
      exact ⟨trivial, rfl, rfl, fun _ => .inr, nofun⟩
    · exact nomatch h
    · obtain rfl := Option.some.inj h
      exact ⟨trivial, rfl, rfl, fun _ => .inr, nofun⟩
  case h_3 hpc =>
    obtain rfl := Option.some.inj h
    exact ⟨by simp [hpc, Pc.Reading],
      .inl ⟨trivial, rfl, rfl, fun _ h => .inl (Option.some.inj h).symm, fun _ => rfl⟩⟩
  case h_4 queue hpc hqueue =>
    refine ⟨by simp [hpc, Pc.Reading], ?_⟩
    split at h
    case h_1 hpop =>
      obtain rfl := Option.some.inj h
      refine .inr ⟨hpc, ?_, rfl⟩
      rintro ⟨queue', hqueue', hne⟩
      obtain rfl := Option.some.inj (hqueue.symm.trans hqueue')
      exact hne (ArrayQueue.pop_eq_none.mp hpop)
    case h_2 => exact nomatch h
    case h_3 =>
      obtain rfl := Option.some.inj h
      exact .inl ⟨trivial, rfl, rfl, fun _ => .inr, nofun⟩
  case h_5 hpc =>
    obtain rfl := Option.some.inj h
    exact ⟨by simp [hpc, Pc.Reading], .inl ⟨trivial, rfl, rfl, nofun, nofun⟩⟩
  case h_6 hpc =>
    obtain rfl := Option.some.inj h
    exact ⟨by simp [hpc, Pc.Reading], .inl ⟨trivial, rfl, rfl, fun _ => .inr, nofun⟩⟩
  case h_7 => exact nomatch h

theorem Inv.consume (h : Inv reader k) (hstep : k.consume reader = some k') : Inv reader k' := by
  obtain ⟨hread, ⟨hread', hexec, hsus, hwaker, hsecond⟩ | ⟨hpc, hsc, rfl⟩⟩ := consume_cases hstep
  · have hoff : k'.suspended = false := hsus.trans (h.running (.inr hread))
    have hnot : k'.suspended ≠ true := by simp [hoff]
    refine ⟨fun hs => absurd hs hnot, fun id hid => ?_, fun hs => absurd hs hnot,
      fun hpc => .inr (hsecond hpc), fun _ => hoff, fun _ => ?_, fun hpc => ?_, fun hpc => ?_⟩
    · exact (hwaker id hid).elim (fun heq => heq) (h.waker_eq id)
    · exact hexec ▸ h.present (.inr hread)
    · rw [hpc] at hread'
      exact hread'.elim
    · rw [hpc] at hread'
      exact hread'.elim
  · have hwaker := (h.second hpc).resolve_left hsc
    exact ⟨fun _ hsc' => absurd hsc' hsc, h.waker_eq, fun _ _ => hwaker, nofun,
      fun hpc => hpc.elim nofun fun h => h.elim, fun _ => h.present (.inr hread), nofun, nofun⟩

/-! ## The executor's steps -/

/-- The executor's loop moves on, outside the reader's poll: only the reader's place in the queue is
to be checked. -/
theorem Inv.move (h : Inv reader k) {ex : Executor} {pc : Pc}
    (hqueued : k.suspended = true → k.HasScancode →
      some reader ∈ ex.taskQueue.unread ∨ pc = .popped reader)
    (htasks : reader ∈ k.executor.tasks → reader ∈ ex.tasks)
    (hpc : pc ≠ .setup ∧ ¬ pc.Reading ∧ pc ≠ .polling reader)
    (hhalted : pc = .halted → ex.taskQueue.unread = []) :
    Inv reader { k with executor := ex, pc := pc } where
  queued := hqueued
  waker_eq := h.waker_eq
  armed := h.armed
  second heq := (hpc.2.1 (by rw [show pc = .second from heq]; trivial)).elim
  running hp := (hp.elim hpc.1 hpc.2.1).elim
  present hp := htasks (h.present (.inl (hp.resolve_right hpc.2.1)))
  other := hpc.2.2
  halted := hhalted

/-- A suspended reader is in the queue where it is not popped. -/
theorem Inv.mem (h : Inv reader k) (hpc : k.pc ≠ .popped reader) (hs : k.suspended = true)
    (hsc : k.HasScancode) : some reader ∈ k.executor.taskQueue.unread :=
  (h.queued hs hsc).resolve_right hpc

/-- The loop moves on with the executor as it is. -/
theorem Inv.moveTo (h : Inv reader k) {pc : Pc} (hold : k.pc ≠ .popped reader)
    (hpc : pc ≠ .setup ∧ ¬ pc.Reading ∧ pc ≠ .polling reader)
    (hhalted : pc = .halted → k.executor.taskQueue.unread = []) :
    Inv reader { k with pc := pc } :=
  h.move (fun hs hsc => .inl (h.mem hold hs hsc)) (fun ht => ht) hpc hhalted

/-- The popped task is polled: the reader by its own steps, another task in one, and none at all if
the task is gone. -/
theorem Inv.begin (h : Inv reader k) (hstep : k.loop reader .begin = some k') : Inv reader k' := by
  rw [Kernel.loop] at hstep
  split at hstep
  · rename_i id hpc
    have hold (hne : id ≠ reader) : k.pc ≠ .popped reader := fun hp =>
      hne (Pc.popped.inj (hpc.symm.trans hp))
    by_cases hid : id ∈ k.executor.tasks
    · rw [if_neg (not_not.mpr hid)] at hstep
      by_cases hreader : id = reader
      · -- the reader's poll begins
        rw [if_pos hreader] at hstep
        obtain rfl := Option.some.inj hstep
        subst hreader
        refine ⟨nofun, h.waker_eq, nofun, fun hp => ?_, fun _ => rfl, fun _ => hid, fun hp => ?_,
          fun hp => ?_⟩
        all_goals
          dsimp only at hp
          split_ifs at hp
      · rw [if_neg hreader] at hstep
        obtain rfl := Option.some.inj hstep
        exact h.moveTo (hold hreader) ⟨nofun, not_false, fun hp => hreader (Pc.polling.inj hp)⟩
          nofun
    · rw [if_pos hid] at hstep
      obtain rfl := Option.some.inj hstep
      -- a suspended reader is not gone
      refine h.move (fun hs hsc => .inl (h.mem (hold ?_) hs hsc)) (fun ht => ht)
        ⟨nofun, not_false, nofun⟩ nofun
      rintro rfl
      exact hid (h.present (.inl hs))
  · exact nomatch hstep

/-- **A step of the executor's loop keeps the invariant.** -/
theorem Inv.loop (h : Inv reader k) (hstep : k.loop reader e = some k') : Inv reader k' := by
  cases e with
  | spawn id =>
    rw [Kernel.loop] at hstep
    split_ifs at hstep with hpc
    obtain ⟨ex, -, hk'⟩ := Option.bind_eq_some_iff.mp hstep
    obtain rfl := Option.some.inj hk'
    have hoff := h.running (.inl hpc)
    have hnot : k.suspended ≠ true := by simp [hoff]
    have hread : ¬ k.pc.Reading := by simp [hpc, Pc.Reading]
    exact ⟨fun hs => absurd hs hnot, h.waker_eq, fun hs => absurd hs hnot, h.second, h.running,
      fun hp => (hp.elim hnot hread).elim, h.other, fun hh => nomatch hpc.symm.trans hh⟩
  | run =>
    rw [Kernel.loop] at hstep
    split_ifs at hstep with hpc
    obtain rfl := Option.some.inj hstep
    exact h.moveTo (by simp [hpc]) ⟨nofun, not_false, nofun⟩ nofun
  | pop =>
    rw [Kernel.loop] at hstep
    split_ifs at hstep with hpc
    have hold : k.pc ≠ .popped reader := by simp [hpc]
    split at hstep
    · obtain rfl := Option.some.inj hstep
      exact h.moveTo hold ⟨nofun, not_false, nofun⟩ nofun
    · exact nomatch hstep
    · rename_i id q hpop
      obtain rfl := Option.some.inj hstep
      refine h.move (fun hs hsc => ?_) (fun ht => ht) ⟨nofun, not_false, nofun⟩ nofun
      have hin := h.mem hold hs hsc
      rw [ArrayQueue.unread_pop hpop] at hin
      rcases List.mem_cons.mp hin with heq | hin
      · exact .inr (by rw [Option.some.inj heq])
      · exact .inl hin
  | begin => exact h.begin hstep
  | finish done =>
    rw [Kernel.loop] at hstep
    split at hstep
    · rename_i id hpc
      obtain rfl := Option.some.inj hstep
      have hne : reader ≠ id := fun heq => h.other (heq ▸ hpc)
      have hold : k.pc ≠ .popped reader := by simp [hpc]
      cases done
      · exact h.moveTo hold ⟨nofun, not_false, nofun⟩ nofun
      · exact h.move (fun hs hsc => .inl (h.mem hold hs hsc))
          (fun ht => Finset.mem_erase.mpr ⟨hne, ht⟩) ⟨nofun, not_false, nofun⟩ nofun
    · exact nomatch hstep
  | disable =>
    rw [Kernel.loop] at hstep
    split_ifs at hstep with hpc
    obtain rfl := Option.some.inj hstep
    exact h.moveTo (by simp [hpc]) ⟨nofun, not_false, nofun⟩ nofun
  | check =>
    rw [Kernel.loop] at hstep
    by_cases hpc : k.pc = .masked
    · rw [if_pos hpc] at hstep
      obtain rfl := Option.some.inj hstep
      have hold : k.pc ≠ .popped reader := by simp [hpc]
      -- the check and the halt see the same queue
      by_cases hempty : k.executor.taskQueue.isEmpty
      · rw [if_pos hempty]
        exact h.moveTo hold ⟨nofun, not_false, nofun⟩ fun _ => ArrayQueue.isEmpty_iff.mp hempty
      · rw [if_neg hempty]
        exact h.moveTo hold ⟨nofun, not_false, nofun⟩ nofun
    · rw [if_neg hpc] at hstep
      exact nomatch hstep
  | consume => exact nomatch hstep
  | wake id => exact nomatch hstep
  | key scancode => exact nomatch hstep
  | interrupt => exact nomatch hstep

/-! ## Wakes and interrupts -/

theorem resume_pc_ne_halted (k : Kernel) : k.resume.pc ≠ .halted := by
  rw [resume]
  dsimp only
  split_ifs with h
  · nofun
  · exact h

theorem resume_of_ne (h : k.pc ≠ .halted) : k.resume = k := by
  rw [resume, if_neg h]

theorem Inv.resume (h : Inv reader k) : Inv reader k.resume := by
  by_cases hpc : k.pc = .halted
  · rw [Kernel.resume, if_pos hpc]
    exact h.moveTo (by simp [hpc]) ⟨nofun, not_false, nofun⟩ nofun
  · rwa [resume_of_ne hpc]

/-- The end of the halt may as well come before the handler. -/
theorem resume_addScancode (scancode : UInt8) :
    (k.addScancode scancode).resume = k.resume.addScancode scancode := by
  obtain ⟨ex, scancodes, waker, pc, suspended⟩ := k
  rcases scancodes with _ | queue
  · rfl
  · rcases hpush : queue.push scancode with _ | queue'
    · simp only [addScancode, Kernel.resume, hpush]
    · simp only [addScancode, Kernel.resume, hpush]
      rcases waker with _ | id <;> rfl

/-- A wake that finds room queues the reader if it is the woken task, or if its entry is kept. -/
theorem mem_wakeTask {ex : Executor} (hroom : ex.taskQueue.len < ex.taskQueue.capacity) :
    some reader ∈ (ex.wakeTask id).taskQueue.unread ↔ id = reader ∨ ex.taskQueue.Keeps reader := by
  rw [Executor.wakeTask]
  rcases hq : ex.taskQueue.push id with _ | q
  · exact absurd ((ArrayQueue.push_eq_none (ArrayQueue.len_succ_lt _)).mp hq) hroom.ne
  · rw [ArrayQueue.mem_unread_push (ArrayQueue.len_succ_lt _) hq, eq_comm]

theorem tasks_wakeTask (ex : Executor) : (ex.wakeTask id).tasks = ex.tasks := by
  rw [Executor.wakeTask]
  split <;> rfl

/-- A wake changes the queue alone. -/
theorem Inv.wakeTask (h : Inv reader k) (hpc : k.pc ≠ .halted)
    (hqueued : k.suspended = true → k.HasScancode →
      some reader ∈ (k.executor.wakeTask id).taskQueue.unread ∨ k.pc = .popped reader) :
    Inv reader { k with executor := k.executor.wakeTask id } :=
  ⟨hqueued, h.waker_eq, h.armed, h.second, h.running,
    fun hp => (tasks_wakeTask _).symm ▸ h.present hp, h.other, fun hp => absurd hp hpc⟩

instance : Nontrivial UInt8 := ⟨0, 1, by decide⟩

/-- **The interrupt handler keeps the invariant**: where it takes the waker it queues the reader. -/
theorem Inv.addScancode (h : Inv reader k) {scancode : UInt8} (hpc : k.pc ≠ .halted)
    (hroom : k.Allowed (.key scancode)) : Inv reader (k.addScancode scancode) := by
  rw [Kernel.addScancode]
  rcases hqueue : k.scancodes with _ | queue
  · exact h
  · dsimp only
    rcases hpush : queue.push scancode with _ | queue'
    · exact h
    · dsimp only
      have hhas (ex waker) : HasScancode { k with
          executor := ex, scancodes := some queue', waker := waker } :=
        ⟨queue', rfl, ArrayQueue.unread_push_ne_nil queue.len_succ_lt hpush⟩
      rw [wakeReader]
      rcases hwaker : k.waker with _ | id
      · -- no waker: the reader is queued already, or not suspended
        have hsc : k.suspended = true → k.HasScancode := fun hs =>
          by_contra fun hno => nomatch hwaker.symm.trans (h.armed hs hno)
        refine ⟨fun hs _ => h.queued hs (hsc hs), ?_, fun _ hno => absurd (hhas _ _) hno,
          fun _ => .inl (hhas _ _), h.running, h.present, h.other, fun hp => absurd hp hpc⟩
        exact nofun
      · obtain rfl := h.waker_eq id hwaker
        have hlt := hroom ⟨by rw [hwaker]; rfl, queue, hqueue, by rw [hpush]; rfl⟩
        exact ⟨fun _ _ => .inl ((mem_wakeTask hlt).mpr (.inl rfl)), nofun,
          fun _ hno => absurd (hhas _ _) hno, fun _ => .inl (hhas _ _), h.running,
          fun hp => (tasks_wakeTask _).symm ▸ h.present hp, h.other, fun hp => absurd hp hpc⟩

/-- **One step keeps the invariant**, if it spares the reader's entry. -/
theorem Inv.step (h : Inv reader k) (hroom : k.Allowed e) (hspares : k.Spares reader e)
    (hstep : k.step reader e = some k') : Inv reader k' := by
  cases e with
  | consume => exact h.consume hstep
  | wake id =>
    dsimp only [Kernel.step] at hstep
    split_ifs at hstep
    obtain rfl := Option.some.inj hstep
    refine h.resume.wakeTask (resume_pc_ne_halted k) fun hs hsc => ?_
    by_cases hpop : k.pc = .popped reader
    · right
      rw [resume_of_ne (by simp [hpop]), hpop]
    · exact .inl ((mem_wakeTask (hroom trivial)).mpr (hspares hs hsc hpop))
  | key scancode =>
    dsimp only [Kernel.step] at hstep
    split_ifs at hstep
    obtain rfl := Option.some.inj hstep
    rw [resume_addScancode]
    exact h.resume.addScancode (resume_pc_ne_halted k) hroom
  | interrupt =>
    dsimp only [Kernel.step] at hstep
    split_ifs at hstep
    obtain rfl := Option.some.inj hstep
    exact h.resume
  | spawn id => exact h.loop (e := (.spawn id)) hstep
  | run => exact h.loop (e := .run) hstep
  | pop => exact h.loop (e := .pop) hstep
  | begin => exact h.loop (e := .begin) hstep
  | finish done => exact h.loop (e := (.finish done)) hstep
  | disable => exact h.loop (e := .disable) hstep
  | check => exact h.loop (e := .check) hstep

/-- Only a wake can lose the reader's entry, and it does so exactly where it does not spare it. -/
theorem Inv.noLostWake_iff (h : Inv reader k) (hroom : k.Allowed e)
    (hstep : k.step reader e = some k') : NoLostWake reader k' ↔ k.Spares reader e := by
  refine ⟨fun hno => ?_, fun hspares => (h.step hroom hspares hstep).noLostWake⟩
  cases e with
  | wake id =>
    intro hs hsc hpop
    dsimp only [Kernel.step] at hstep
    split_ifs at hstep
    obtain rfl := Option.some.inj hstep
    rcases hno.queued hs hsc with hmem | hpop'
    · exact (mem_wakeTask (hroom trivial)).mp hmem
    · simp only [Kernel.resume] at hpop'
      split_ifs at hpop'
      exact absurd hpop' hpop
  | _ => trivial

/-- **No keyboard wake-up is lost in a run that spares the reader's entry**, and the first step that
does not spare it loses one. -/
theorem no_lost_keyboard_wake
    (hrun : Run (step reader) (fun k e => k.Allowed e ∧ k.Spares reader e) start events k) :
    NoLostWake reader k ∧ ∀ e k', k.Allowed e → k.step reader e = some k' →
      (NoLostWake reader k' ↔ k.Spares reader e) := by
  have hinv : Inv reader k := hrun.invariant (P := Inv reader)
    (fun _ _ _ h hok hstep => h.step hok.1 hok.2 hstep) inv_start
  exact ⟨hinv.noLostWake, fun _ _ hroom hstep => hinv.noLostWake_iff hroom hstep⟩

/-- The reader is suspended, a key is pressed, and another task is woken. -/
def keyPressed : List Event :=
  [.spawn 0, .spawn 1, .run, .pop, .begin, .consume, .consume, .consume, .consume, .key 30, .wake 1]

theorem no_lost_keyboard_wake_keyPressed : ∃ k,
    Run (step 0) (fun k e => k.Allowed e ∧ k.Spares 0 e) start keyPressed k ∧
      k.suspended = true ∧ k.HasScancode ∧ NoLostWake 0 k := by
  have hgo : ((runFrom (step 0) (fun k e => k.Allowed e ∧ k.Spares 0 e) start keyPressed).any
      fun k => k.suspended && decide k.HasScancode) = true := by
    decide +kernel
  simp only [Option.any_eq_true, Bool.and_eq_true, decide_eq_true_eq] at hgo
  obtain ⟨k, hk, hsus, hsc⟩ := hgo
  have hrun := Run.of_runFrom hk
  exact ⟨k, hrun, hsus, hsc, (no_lost_keyboard_wake hrun).1⟩

end Kernel

end YontiOs.Task
