import YontiOs.Task.Fifo
import YontiOs.Task.Executor

/-!
# Task/Fairness — a woken task is polled within a hundred turns

The executor's queue is a FIFO, so an id in it moves forward with every turn of the loop, whatever
else is spawned or woken meanwhile.  A task that waits in the queue is there to be polled when its
id comes to the front, since only its own poll can remove it.  The queue has room for 100 ids: a
queued task is polled within 100 turns (`queued_task_polled`).
-/

namespace YontiOs.Task.Sched

variable {s s' s'' : Sched} {op : SchedOp} {ops : List SchedOp} {id : TaskId}
  {q : ArrayQueue TaskId} {l₁ l₂ : List (Option TaskId)}

/-- Tasks are spawned and wakers invoked at will, those of finished tasks too. -/
def Anything (_ : Sched) (_ : SchedOp) : Prop := True

instance (s : Sched) (op : SchedOp) : Decidable (s.Anything op) := inferInstanceAs (Decidable True)

/-- A turn of the executor's loop. -/
def isPoll : SchedOp → Bool
  | .poll => true
  | _ => false

/-- The task waits for its poll: it is not being polled, and its id is in the queue behind `l₁`. -/
structure Waits (s : Sched) (id : TaskId) (l₁ : List (Option TaskId)) : Prop where
  present : id ∈ s.executor.tasks
  idle : s.polling ≠ some id
  queued : ∃ l₂, s.executor.taskQueue.unread = l₁ ++ some id :: l₂

/-- **A turn of the loop** polls the task at the front, and moves the others forward. -/
theorem Waits.poll (h : s.Waits id l₁) (hstep : s.step .poll = some s') :
    s'.polling = some id ∨ ∃ x l, l₁ = x :: l ∧ s'.Waits id l := by
  obtain ⟨l₂, hl⟩ := h.queued
  rw [step] at hstep
  split at hstep
  · cases hstep
  · rename_i hpop
    rw [ArrayQueue.pop_eq_none.mp hpop] at hl
    exact absurd hl (by simp)
  · cases hstep
  · rename_i front q hpoll hpop
    have hunread := ArrayQueue.unread_pop hpop
    rw [hl] at hunread
    by_cases hfront : front = id
    · rw [if_pos (hfront ▸ h.present)] at hstep
      obtain rfl := Option.some.inj hstep
      exact .inl (congrArg some hfront)
    · right
      rcases l₁ with _ | ⟨x, l⟩
      · exact absurd (Option.some.inj (List.cons.inj hunread).1).symm hfront
      · refine ⟨x, l, rfl, ?_⟩
        have hrest : q.unread = l ++ some id :: l₂ := ((List.cons.inj hunread).2).symm
        split_ifs at hstep
        · obtain rfl := Option.some.inj hstep
          exact ⟨h.present, fun heq => hfront (Option.some.inj heq), l₂, hrest⟩
        · obtain rfl := Option.some.inj hstep
          exact ⟨h.present, h.idle, l₂, hrest⟩

/-- Ids are pushed behind it. -/
theorem Waits.push (h : s.Waits id l₁) (hun : s.executor.taskQueue.Unwrapped s.pushes)
    (hlt : s.pushes + 1 < 2 ^ 64) {v : TaskId} (hq : s.executor.taskQueue.push v = some q) :
    ∃ l₂, q.unread = l₁ ++ some id :: l₂ := by
  obtain ⟨l₂, hl⟩ := h.queued
  refine ⟨l₂ ++ [some v], ?_⟩
  rw [hun.unread_push hlt hq, hl, List.append_assoc, List.cons_append]

/-- **Every other step leaves it where it is.** -/
theorem Waits.step (h : s.Waits id l₁) (hinv : s.Inv) (hlt : s'.pushes < 2 ^ 64)
    (hop : isPoll op = false) (hstep : s.step op = some s') : s'.Waits id l₁ := by
  cases op with
  | poll => cases hop
  | spawn v =>
    simp only [Sched.step, Executor.spawn, Option.bind_eq_bind, Option.bind_eq_some_iff] at hstep
    obtain ⟨e, he, hs'⟩ := hstep
    split_ifs at he
    obtain ⟨q, hq, he⟩ := Option.bind_eq_some_iff.mp he
    obtain rfl := Option.some.inj he
    obtain rfl := Option.some.inj hs'
    exact ⟨Finset.mem_insert_of_mem h.present, h.idle, h.push hinv.unwrapped hlt hq⟩
  | finish done =>
    rw [Sched.step] at hstep
    split at hstep
    · cases hstep
    · rename_i v hpoll
      obtain rfl := Option.some.inj hstep
      cases done
      · exact ⟨h.present, (Option.some_ne_none id).symm, h.queued⟩
      · -- the poll that ends is not its own
        have hne : id ≠ v := fun heq => h.idle (heq ▸ hpoll)
        exact ⟨Finset.mem_erase.mpr ⟨hne, h.present⟩, (Option.some_ne_none id).symm, h.queued⟩
  | wake v =>
    obtain rfl := Option.some.inj hstep
    rcases hq : s.executor.taskQueue.push v with _ | q
    · simp only [hq, Executor.wakeTask]
      exact ⟨h.present, h.idle, h.queued⟩
    · simp only [hq, Executor.wakeTask, Option.isSome_some, if_true] at hlt ⊢
      exact ⟨h.present, h.idle, h.push hinv.unwrapped hlt hq⟩

theorem pushes_le_of_run (hrun : Run step Anything s ops s') : s.pushes ≤ s'.pushes :=
  hrun.invariant (P := fun t => s.pushes ≤ t.pushes)
    (fun _ _ _ h _ hstep => h.trans (pushes_le hstep)) le_rfl

theorem capacity_step (hstep : s.step op = some s') :
    s'.executor.taskQueue.capacity = s.executor.taskQueue.capacity := by
  cases op with
  | spawn v =>
    simp only [step, Executor.spawn, Option.bind_eq_bind, Option.bind_eq_some_iff] at hstep
    obtain ⟨e, he, hs'⟩ := hstep
    split_ifs at he
    obtain ⟨q, hq, he⟩ := Option.bind_eq_some_iff.mp he
    obtain rfl := Option.some.inj he
    obtain rfl := Option.some.inj hs'
    exact (ArrayQueue.push_eq_some hq).2.2.1
  | poll =>
    rw [step] at hstep
    split at hstep
    · cases hstep
    · obtain rfl := Option.some.inj hstep
      rfl
    · cases hstep
    · rename_i front q _ hpop
      have hcap := (ArrayQueue.pop_eq_some hpop).2.2.2.2.1
      split_ifs at hstep <;> obtain rfl := Option.some.inj hstep <;> exact hcap
  | finish done =>
    rw [step] at hstep
    split at hstep
    · cases hstep
    · obtain rfl := Option.some.inj hstep
      cases done <;> rfl
  | wake v =>
    obtain rfl := Option.some.inj hstep
    rcases hq : s.executor.taskQueue.push v with _ | q
    · simp only [hq, Executor.wakeTask]
    · simp only [hq, Executor.wakeTask]
      exact (ArrayQueue.push_eq_some hq).2.2.1

/-- Every reachable state keeps the invariant and the queue of 100 places. -/
theorem inv_of_run (hrun : Run step Anything start ops s) (hlt : s.pushes < 2 ^ 64) :
    s.Inv ∧ s.executor.taskQueue.capacity = maxTasks := by
  refine hrun.invariant (P := fun s => s.pushes < 2 ^ 64 →
    s.Inv ∧ s.executor.taskQueue.capacity = maxTasks) (fun s op s' h _ hstep hlt' => ?_)
    (fun _ => ⟨inv_start, rfl⟩) hlt
  obtain ⟨hinv, hcap⟩ := h ((pushes_le hstep).trans_lt hlt')
  exact ⟨hinv.step hlt' hstep, (capacity_step hstep).trans hcap⟩

/-- **A waiting task is polled** when as many turns have gone by as ids are before it, and one. -/
theorem Waits.polled (h : s.Waits id l₁) (hinv : s.Inv)
    (hrun : Run Sched.step Anything s ops s')
    (hlt : s'.pushes < 2 ^ 64) (hturns : l₁.length < ops.countP isPoll) :
    ∃ ops₁ ops₂ s₁, ops = ops₁ ++ ops₂ ∧ Run Sched.step Anything s ops₁ s₁ ∧ s₁.polling = some id ∧
      ops₁.countP isPoll ≤ l₁.length + 1 := by
  induction ops generalizing s l₁ with
  | nil => exact absurd hturns (Nat.not_lt_zero _)
  | cons op ops ih =>
    obtain _ | ⟨hok, hstep, hrun⟩ := hrun
    rename_i t
    have hlt' : t.pushes < 2 ^ 64 := (pushes_le_of_run hrun).trans_lt hlt
    have hinv' := hinv.step hlt' hstep
    by_cases hop : isPoll op = true
    · obtain rfl : op = .poll := by cases op <;> first | rfl | cases hop
      rw [List.countP_cons_of_pos hop] at hturns
      rcases h.poll hstep with hpoll | ⟨x, l, rfl, hwaits⟩
      · exact ⟨[.poll], ops, t, rfl, .cons hok hstep (.nil t), hpoll, Nat.le_add_left _ _⟩
      · rw [List.length_cons] at hturns
        obtain ⟨ops₁, ops₂, s₁, rfl, hrun₁, hpoll, hle⟩ := ih hwaits hinv' hrun (by omega)
        refine ⟨.poll :: ops₁, ops₂, s₁, rfl, .cons hok hstep hrun₁, hpoll, ?_⟩
        rw [List.countP_cons_of_pos hop, List.length_cons]
        omega
    · rw [List.countP_cons_of_neg hop] at hturns
      have hwaits := h.step hinv hlt' (Bool.eq_false_iff.mpr hop) hstep
      obtain ⟨ops₁, ops₂, s₁, rfl, hrun₁, hpoll, hle⟩ := ih hwaits hinv' hrun hturns
      refine ⟨op :: ops₁, ops₂, s₁, rfl, .cons hok hstep hrun₁, hpoll, ?_⟩
      rwa [List.countP_cons_of_neg hop]

/-- **A queued task is polled within 100 turns of the loop**, whatever is spawned, woken and
finished in between, if it is not being polled when the turns begin. -/
theorem queued_task_polled {rest : List SchedOp} (hrun : Run step Anything start ops s)
    (hid : id ∈ s.executor.tasks) (hqueued : some id ∈ s.executor.taskQueue.unread)
    (hidle : s.polling ≠ some id) (hrest : Run step Anything s rest s') (hlt : s'.pushes < 2 ^ 64)
    (hturns : maxTasks ≤ rest.countP isPoll) :
    ∃ rest₁ rest₂ s₁, rest = rest₁ ++ rest₂ ∧ Run step Anything s rest₁ s₁ ∧
      s₁.polling = some id ∧ rest₁.countP isPoll ≤ maxTasks := by
  obtain ⟨hinv, hcap⟩ := inv_of_run hrun ((pushes_le_of_run hrest).trans_lt hlt)
  obtain ⟨l₁, l₂, hl⟩ := List.append_of_mem hqueued
  have hroom : l₁.length < maxTasks := by
    have hlen := congrArg List.length hl
    rw [ArrayQueue.unread, List.length_map, List.length_range, List.length_append,
      List.length_cons] at hlen
    have hle : s.executor.taskQueue.len ≤ s.executor.taskQueue.capacity :=
      s.executor.taskQueue.len_le
    omega
  obtain ⟨rest₁, rest₂, s₁, heq, hrun₁, hpoll, hle⟩ :=
    Waits.polled ⟨hid, hidle, l₂, hl⟩ hinv hrest hlt (hroom.trans_le hturns)
  exact ⟨rest₁, rest₂, s₁, heq, hrun₁, hpoll, hle.trans hroom⟩

/-- Both tasks are polled once more, and the loop goes on with an empty queue. -/
def hundredTurns : List SchedOp :=
  [.poll, .finish false, .poll, .finish false] ++ List.replicate 98 .poll

theorem queued_task_polled_second :
    ∃ s s', Run step Anything start (twoPolled ++ [.wake 0, .wake 1]) s ∧
      Run step Anything s hundredTurns s' ∧
      ∃ rest₁ rest₂ s₁, hundredTurns = rest₁ ++ rest₂ ∧ Run step Anything s rest₁ s₁ ∧
        s₁.polling = some 1 ∧ rest₁.countP isPoll ≤ maxTasks := by
  have hgo : ((runFrom step Anything start (twoPolled ++ [.wake 0, .wake 1])).any fun s =>
      decide (1 ∈ s.executor.tasks) && decide (some 1 ∈ s.executor.taskQueue.unread) &&
        decide (s.polling ≠ some 1) &&
          (runFrom step Anything s hundredTurns).any fun s' => decide (s'.pushes < 2 ^ 64)) =
      true := by
    decide +kernel
  simp only [Option.any_eq_true, Bool.and_eq_true, decide_eq_true_eq] at hgo
  obtain ⟨s, hs, ⟨⟨htask, hqueued⟩, hidle⟩, s', hs', hlt⟩ := hgo
  have hrun := Run.of_runFrom hs
  have hrest := Run.of_runFrom hs'
  exact ⟨s, s', hrun, hrest,
    queued_task_polled hrun htask hqueued hidle hrest hlt (by decide +kernel)⟩

end YontiOs.Task.Sched
