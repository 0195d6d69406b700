import YontiOs.Machinery.Run
import YontiOs.Task.ArrayQueue

/-!
# Task/Executor — the executor, its wakers, and which wakes get through

The executor's queue has as many slots as there may be tasks, but wakes are not merged: one task
woken again and again fills it, and then another task's wake is dropped (`wake_dropped`).  A wake
that finds room is never lost: the task stays queued until its next poll begins
(`delivered_wake_queued`), as long as the queue's counters have not wrapped.
-/

namespace YontiOs.Task

abbrev TaskId := ℕ

def maxTasks : ℕ := 100

/-- `Executor`, with the tasks by their ids. -/
structure Executor where
  tasks : Finset TaskId
  taskQueue : ArrayQueue TaskId

namespace Executor

def new : Executor := ⟨∅, .new maxTasks (by decide) (by decide) fun _ => by decide⟩

/-- `spawn(task)`: a panic when the id is taken, and when the queue is full. -/
def spawn (e : Executor) (id : TaskId) : Option Executor :=
  if id ∈ e.tasks then none
  else do some ⟨insert id e.tasks, ← e.taskQueue.push id⟩

/-- `TaskWaker::wake_task`: a wake that finds the queue full is dropped. -/
def wakeTask (e : Executor) (id : TaskId) : Executor :=
  match e.taskQueue.push id with
  | some q => { e with taskQueue := q }
  | none => e

/-- `tasks.remove(&task_id)`, for a task that is done. -/
def remove (e : Executor) (id : TaskId) : Executor := { e with tasks := e.tasks.erase id }

end Executor

/-- The executor at work, with a record of the wakes: `invoked` has the tasks whose waker was
invoked since their latest poll began, `delivered` those of them with an invocation that found room.
-/
structure Sched where
  executor : Executor
  polling : Option TaskId
  invoked : Finset TaskId
  delivered : Finset TaskId
  pushes : ℕ

/-- What happens to an executor. -/
inductive SchedOp where
  | spawn (id : TaskId)
  | poll
  | finish (done : Bool)
  | wake (id : TaskId)
deriving DecidableEq, Repr

namespace Sched

def start : Sched := ⟨.new, none, ∅, ∅, 0⟩

/-- One step; `poll` is a turn of the loop of `run_ready_tasks` up to the call of the task's `poll`,
`finish` what the loop does when that call returns. -/
def step (s : Sched) : SchedOp → Option Sched
  | .spawn id => do
    some { s with
      executor := ← s.executor.spawn id
      invoked := s.invoked.erase id
      delivered := s.delivered.erase id
      pushes := s.pushes + 1 }
  | .poll =>
    match s.polling, s.executor.taskQueue.pop with
    | some _, _ => none
    | none, none => some s
    -- a slot that was never written
    | none, some (none, _) => none
    | none, some (some id, q) =>
      if id ∈ s.executor.tasks then
        some { s with
          executor := { s.executor with taskQueue := q }
          polling := some id
          invoked := s.invoked.erase id
          delivered := s.delivered.erase id }
      else some { s with executor := { s.executor with taskQueue := q } }
  | .finish done =>
    match s.polling with
    | none => none
    | some id =>
      some { s with
        executor := if done then s.executor.remove id else s.executor
        polling := none }
  | .wake id =>
    let room := (s.executor.taskQueue.push id).isSome
    some { s with
      executor := s.executor.wakeTask id
      invoked := insert id s.invoked
      delivered := if room then insert id s.delivered else s.delivered
      pushes := if room then s.pushes + 1 else s.pushes }

/-- At most `MAX_TASKS` tasks are live, and only their wakers are invoked. -/
def Allowed (s : Sched) : SchedOp → Prop
  | .spawn _ => s.executor.tasks.card < maxTasks
  | .wake id => id ∈ s.executor.tasks
  | _ => True

instance (s : Sched) : ∀ op, Decidable (s.Allowed op)
  | .spawn _ => inferInstanceAs (Decidable (_ < _))
  | .wake _ => inferInstanceAs (Decidable (_ ∈ _))
  | .poll => inferInstanceAs (Decidable True)
  | .finish _ => inferInstanceAs (Decidable True)

variable {s s' : Sched} {op : SchedOp} {ops : List SchedOp} {id : TaskId} {q : ArrayQueue TaskId}

/-- Delivered wakes are queued, and the queue's counters have not wrapped. -/
structure Inv (s : Sched) : Prop where
  unwrapped : s.executor.taskQueue.Unwrapped s.pushes
  queued : ∀ id ∈ s.executor.tasks, id ∈ s.delivered → some id ∈ s.executor.taskQueue.unread

theorem inv_start : start.Inv := ⟨.new _ _ _, fun _ h => nomatch h⟩

/-- **One step keeps delivered wakes queued.** -/
theorem Inv.step (h : s.Inv) (hlt : s'.pushes < 2 ^ 64) (hstep : s.step op = some s') : s'.Inv := by
  cases op with
  | spawn id =>
    simp only [Sched.step, Executor.spawn, Option.bind_eq_bind, Option.bind_eq_some_iff] at hstep
    obtain ⟨e, he, hs'⟩ := hstep
    split_ifs at he with hid
    obtain ⟨q, hq, he⟩ := Option.bind_eq_some_iff.mp he
    obtain rfl := Option.some.inj he
    obtain rfl := Option.some.inj hs'
    refine ⟨h.unwrapped.push hlt hq, fun a ha hd => ?_⟩
    obtain ⟨hne, hd⟩ := Finset.mem_erase.mp hd
    exact h.unwrapped.mem_push hlt hq (h.queued a ((Finset.mem_insert.mp ha).resolve_left hne) hd)
  | poll =>
    rw [Sched.step] at hstep
    split at hstep
    · exact nomatch hstep
    · obtain rfl := Option.some.inj hstep
      exact h
    · exact nomatch hstep
    · rename_i id q _ hpop
      have hunread := ArrayQueue.unread_pop hpop
      -- an id that is not the popped one is still behind it
      have hrest : ∀ a, a ≠ id → some a ∈ s.executor.taskQueue.unread → some a ∈ q.unread :=
        fun a hne ha => (List.mem_cons.mp (hunread ▸ ha)).resolve_left fun heq =>
          hne (Option.some.inj heq)
      split_ifs at hstep with hid
      · obtain rfl := Option.some.inj hstep
        refine ⟨h.unwrapped.pop hpop, fun a ha hd => ?_⟩
        obtain ⟨hne, hd⟩ := Finset.mem_erase.mp hd
        exact hrest a hne (h.queued a ha hd)
      · obtain rfl := Option.some.inj hstep
        refine ⟨h.unwrapped.pop hpop, fun a ha hd => hrest a ?_ (h.queued a ha hd)⟩
        rintro rfl
        exact hid ha
  | finish done =>
    rw [Sched.step] at hstep
    split at hstep
    · exact nomatch hstep
    · obtain rfl := Option.some.inj hstep
      cases done
      · exact ⟨h.unwrapped, h.queued⟩
      · exact ⟨h.unwrapped, fun a ha => h.queued a (Finset.mem_of_mem_erase ha)⟩
  | wake id =>
    obtain rfl := Option.some.inj hstep
    rcases hq : s.executor.taskQueue.push id with _ | q
    · simp only [hq, Option.isSome_none, Executor.wakeTask] at hlt ⊢
      exact ⟨h.unwrapped, h.queued⟩
    · simp only [hq, Option.isSome_some, Executor.wakeTask, if_true] at hlt ⊢
      refine ⟨h.unwrapped.push hlt hq, fun a ha hd => ?_⟩
      rcases Finset.mem_insert.mp hd with rfl | hd
      · exact (ArrayQueue.mem_unread_push (ArrayQueue.len_succ_lt _) hq).mpr (.inl rfl)
      · exact h.unwrapped.mem_push hlt hq (h.queued a ha hd)

theorem pushes_le (hstep : s.step op = some s') : s.pushes ≤ s'.pushes := by
  cases op with
  | spawn id =>
    obtain ⟨e, -, hs'⟩ := Option.bind_eq_some_iff.mp hstep
    obtain rfl := Option.some.inj hs'
    exact Nat.le_succ _
  | poll =>
    rw [Sched.step] at hstep
    split at hstep
    · exact nomatch hstep
    · exact (congrArg pushes (Option.some.inj hstep)).le
    · exact nomatch hstep
    · split_ifs at hstep <;> exact (congrArg pushes (Option.some.inj hstep)).le
  | finish done =>
    rw [Sched.step] at hstep
    split at hstep
    · exact nomatch hstep
    · exact (congrArg pushes (Option.some.inj hstep)).le
  | wake id =>
    obtain rfl := Option.some.inj hstep
    dsimp only
    split_ifs
    · exact Nat.le_succ _
    · exact le_rfl

/-- **A wake that found room is queued until the task's next poll begins**, in every run of fewer
than `2 ^ 64` pushes. -/
theorem delivered_wake_queued (hrun : Run step Allowed start ops s) (hlt : s.pushes < 2 ^ 64) :
    ∀ id ∈ s.executor.tasks, id ∈ s.delivered → some id ∈ s.executor.taskQueue.unread := by
  have hinv : s.pushes < 2 ^ 64 → s.Inv := hrun.invariant (P := fun s => s.pushes < 2 ^ 64 → s.Inv)
    (fun _ _ _ h _ hstep hlt' => (h ((pushes_le hstep).trans_lt hlt')).step hlt' hstep)
    fun _ => inv_start
  exact (hinv hlt).queued

/-- Two tasks that have both been polled. -/
def twoPolled : List SchedOp :=
  [.spawn 0, .spawn 1, .poll, .finish false, .poll, .finish false]

theorem delivered_wake_queued_once :
    ∃ s, Run step Allowed start (twoPolled ++ [.wake 0, .wake 1]) s ∧
    1 ∈ s.executor.tasks ∧ 1 ∈ s.delivered ∧ some 1 ∈ s.executor.taskQueue.unread := by
  have hgo : ((runFrom step Allowed start (twoPolled ++ [.wake 0, .wake 1])).any fun s =>
      decide (1 ∈ s.executor.tasks) && decide (1 ∈ s.delivered) &&
        decide (s.pushes < 2 ^ 64)) = true := by
    decide +kernel
  simp only [Option.any_eq_true, Bool.and_eq_true, decide_eq_true_eq] at hgo
  obtain ⟨s, hs, ⟨htask, hdel⟩, hlt⟩ := hgo
  have hrun := Run.of_runFrom hs
  exact ⟨s, hrun, htask, hdel, delivered_wake_queued hrun hlt 1 htask hdel⟩

/-- **A wake is dropped when another task fills the queue**: task 0 is woken 100 times, and the wake
of task 1 that follows leaves it out of the queue. -/
theorem wake_dropped : ∃ s,
    Run step Allowed start (twoPolled ++ List.replicate 100 (.wake 0) ++ [.wake 1]) s ∧
      s.executor.tasks.card ≤ maxTasks ∧ 1 ∈ s.executor.tasks ∧ 1 ∈ s.invoked ∧
      some 1 ∉ s.executor.taskQueue.unread := by
  have hgo : ((runFrom step Allowed start
      (twoPolled ++ List.replicate 100 (.wake 0) ++ [.wake 1])).any fun s =>
        decide (s.executor.tasks.card ≤ maxTasks) && decide (1 ∈ s.executor.tasks) &&
          decide (1 ∈ s.invoked) && decide (some 1 ∉ s.executor.taskQueue.unread)) = true := by
    decide +kernel
  simp only [Option.any_eq_true, Bool.and_eq_true, decide_eq_true_eq] at hgo
  obtain ⟨s, hs, ⟨⟨hcard, htask⟩, hinv⟩, hno⟩ := hgo
  exact ⟨s, Run.of_runFrom hs, hcard, htask, hinv, hno⟩

end Sched

end YontiOs.Task
