import YontiOs.Task.Delivery

/-!
# Task/WakerRefs — the keyboard handler frees nothing

`add_scancode` must not allocate: it runs in an interrupt, and what it interrupts may hold the lock
of the heap.  But it takes the waker out of its cell and wakes by value, which drops a reference,
and whoever drops the last reference of an `Arc` frees it.

`Refs` counts the references to the waker of the reader: its task has one, its poll another, the
cell a third.  The reader may be any task that reads scancodes for a while and returns.  The cell is
empty whenever it can return, since `poll_next` takes back a waker that is not needed, so the
handler never drops the last reference (`handler_frees_nothing`).
-/

namespace YontiOs.Task

instance : DecidablePred Pc.Reading
  | .create | .first | .register | .second | .take | .handle => isTrue trivial
  | .setup | .ready | .popped _ | .polling _ | .idle | .masked | .halted => isFalse not_false

/-- The machine, the strong count of the reader's waker, and whether the handler has dropped the
last reference. -/
structure Refs where
  kernel : Kernel
  strong : ℕ
  freed : Bool

/-- What happens: a step as before, or the reader returns `Ready`. -/
inductive RefEvent where
  | step (e : Event)
  | done
deriving DecidableEq, Repr

namespace Refs

def start : Refs := ⟨.start, 0, false⟩

/-- The references in the cell `WAKER`. -/
def cell (k : Kernel) : ℕ := if k.waker.isSome then 1 else 0

/-- The count after a step of the machine. -/
def after (reader : TaskId) (s : Refs) (k' : Kernel) : Event → Refs
  -- `create_waker`, moved into the task
  | .spawn id => { s with kernel := k', strong := if id = reader then s.strong + 1 else s.strong }
  -- the clone in `run_ready_tasks`
  | .begin => { s with kernel := k', strong := if k'.pc.Reading then s.strong + 1 else s.strong }
  | .consume =>
    { s with
      kernel := k'
      strong :=
        -- the new clone is put in the place of what is in the cell
        if s.kernel.pc = .register then s.strong + 1 - cell s.kernel
        -- what `WAKER.take()` returns is dropped
        else if s.kernel.pc = .take then s.strong - cell s.kernel
        -- the poll returns `Pending`
        else if k'.pc = .ready then s.strong - 1
        else s.strong }
  -- `waker.wake()` takes the reference and drops it
  | .key _ =>
    if k'.waker = s.kernel.waker then { s with kernel := k' }
    else ⟨k', s.strong - 1, s.freed || decide (s.strong = 1)⟩
  | _ => { s with kernel := k' }

/-- One step; the reader returns where it has a scancode in hand, or before it reads any. -/
def step (reader : TaskId) (s : Refs) : RefEvent → Option Refs
  | .step e => (s.kernel.step reader e).map fun k' => s.after reader k' e
  | .done =>
    if s.kernel.pc = .handle ∨ s.kernel.pc = .create then
      -- the task's reference and that of its poll
      some { s with
        kernel := { s.kernel with executor := s.kernel.executor.remove reader, pc := .ready }
        strong := s.strong - 2 }
    else none

/-- Those who have a reference: the task, its poll and the cell. -/
def holders (reader : TaskId) (k : Kernel) : ℕ :=
  (if reader ∈ k.executor.tasks then 1 else 0) + (if k.pc.Reading then 1 else 0) + cell k

/-- **Every reference has a holder**, and the cell has one only while the task is there. -/
structure Inv (reader : TaskId) (s : Refs) : Prop where
  strong : s.strong = holders reader s.kernel
  held : s.kernel.waker.isSome = true → reader ∈ s.kernel.executor.tasks
  reading : s.kernel.pc.Reading → reader ∈ s.kernel.executor.tasks
  created : s.kernel.waker.isSome = true → s.kernel.scancodes.isSome = true
  queue : s.kernel.pc.Reading → s.kernel.pc ≠ .create → s.kernel.scancodes.isSome = true
  unread : s.kernel.waker.isSome = true → s.kernel.HasScancode →
    s.kernel.pc = .second ∨ s.kernel.pc = .take
  done : s.kernel.pc = .handle ∨ s.kernel.pc = .create → s.kernel.waker = none
  setup : s.kernel.pc = .setup → s.kernel.waker = none
  other : s.kernel.pc ≠ .polling reader
  freed : s.freed = false

variable {reader id : TaskId} {s s' : Refs} {k k' : Kernel} {e : Event} {events : List RefEvent}

theorem holders_mk (ex : Executor) (scancodes : Option (ArrayQueue UInt8)) (waker : Option TaskId)
    (pc : Pc) (suspended : Bool) : holders reader ⟨ex, scancodes, waker, pc, suspended⟩ =
      (if reader ∈ ex.tasks then 1 else 0) + (if pc.Reading then 1 else 0) +
        (if waker.isSome then 1 else 0) := rfl

theorem inv_start : start.Inv reader where
  strong := rfl
  held h := by cases h
  reading h := h.elim
  created h := by cases h
  queue h := h.elim
  unread h := by cases h
  done _ := rfl
  setup _ := rfl
  other h := by cases h
  freed := rfl

/-- The executor's loop moves on outside the reader's poll. -/
theorem Inv.move (h : s.Inv reader) (hread : ¬ s.kernel.pc.Reading) {ex : Executor} {pc : Pc}
    (htasks : reader ∈ ex.tasks ↔ reader ∈ s.kernel.executor.tasks)
    (hread' : ¬ pc.Reading) (hsetup : pc ≠ .setup) (hother : pc ≠ .polling reader) :
    Inv reader { s with kernel := { s.kernel with executor := ex, pc := pc } } where
  strong := by
    rw [h.strong, holders, holders, if_neg hread]
    dsimp only
    rw [if_neg hread']
    simp only [htasks]
    rfl
  held hw := htasks.mpr (h.held hw)
  reading hr := absurd hr hread'
  created := h.created
  queue hr := absurd hr hread'
  unread hw hsc := by
    rcases h.unread hw hsc with hpc | hpc
    · exact absurd (by rw [hpc]; trivial) hread
    · exact absurd (by rw [hpc]; trivial) hread
  done hpc := by
    rcases hpc with rfl | rfl
    · exact absurd trivial hread'
    · exact absurd trivial hread'
  setup hpc := absurd hpc hsetup
  other := hother
  freed := h.freed

/-! ## The executor's steps -/

/-- `spawn`, before the loop runs. -/
theorem Inv.spawn (h : s.Inv reader) (hstep : s.kernel.loop reader (.spawn id) = some k') :
    (s.after reader k' (.spawn id)).Inv reader := by
  rw [Kernel.loop] at hstep
  split_ifs at hstep with hpc
  obtain ⟨ex, hspawn, hk'⟩ := Option.bind_eq_some_iff.mp hstep
  obtain rfl := Option.some.inj hk'
  rw [Executor.spawn] at hspawn
  split_ifs at hspawn with hid
  obtain ⟨q, -, hex⟩ := Option.bind_eq_some_iff.mp hspawn
  obtain rfl := Option.some.inj hex
  have hwaker := h.setup hpc
  have hread : ¬ s.kernel.pc.Reading := by rw [hpc]; exact not_false
  have hnone : s.kernel.waker.isSome ≠ true := by rw [hwaker]; decide
  refine ⟨?_, fun hw => absurd hw hnone, fun hr => absurd hr hread, fun hw => absurd hw hnone,
    fun hr => absurd hr hread, fun hw => absurd hw hnone, fun _ => hwaker, fun _ => hwaker,
    h.other, h.freed⟩
  have hstrong := h.strong
  rw [holders, cell, if_neg hread, if_neg hnone] at hstrong
  dsimp only [after]
  rw [holders_mk, if_neg hread, if_neg hnone, hstrong]
  by_cases heq : id = reader
  · subst heq
    rw [if_pos rfl, if_neg hid, if_pos (Finset.mem_insert_self _ _)]
  · have hmem : reader ∈ insert id s.kernel.executor.tasks ↔
        reader ∈ s.kernel.executor.tasks :=
      ⟨fun hm => (Finset.mem_insert.mp hm).resolve_left fun hr => heq hr.symm,
        Finset.mem_insert_of_mem⟩
    rw [if_neg heq]
    simp only [hmem]

/-- The reader's poll begins. -/
theorem Inv.enter (h : s.Inv reader) (hpc : s.kernel.pc = .popped reader)
    (hmem : reader ∈ s.kernel.executor.tasks) :
    Inv reader ⟨⟨s.kernel.executor, s.kernel.scancodes, s.kernel.waker,
      if s.kernel.scancodes.isNone then .create else .first, false⟩, s.strong + 1, s.freed⟩ := by
  have hread : ¬ s.kernel.pc.Reading := by rw [hpc]; exact not_false
  have hread' : (if s.kernel.scancodes.isNone then Pc.create else .first).Reading := by
    split_ifs <;> trivial
  refine ⟨?_, h.held, fun _ => hmem, h.created, fun _ hcr => ?_, fun hw hsc => ?_, fun hcr => ?_,
    fun hp => ?_, fun hp => ?_, h.freed⟩
  · have hstrong := h.strong
    rw [holders, if_pos hmem, if_neg hread] at hstrong
    dsimp only
    rw [holders_mk, if_pos hmem, if_pos hread', hstrong]
    simp only [cell]
    omega
  · by_contra hnone
    exact hcr (if_pos (Option.isNone_iff_eq_none.mpr (Option.not_isSome_iff_eq_none.mp hnone)))
  · -- what is left unread would have taken the waker
    rcases h.unread hw hsc with hp | hp <;> cases hpc.symm.trans hp
  · -- before the first poll there is no cell to fill
    by_contra hw
    have hsome := h.created (Option.isSome_iff_ne_none.mpr hw)
    dsimp only at hcr
    rw [if_neg (by rw [Option.isNone_eq_false_iff.mpr hsome]; decide)] at hcr
    rcases hcr with hcr | hcr <;> cases hcr
  · dsimp only at hp
    split_ifs at hp
  · dsimp only at hp
    split_ifs at hp

/-- A poll begins. -/
theorem Inv.begin (h : s.Inv reader) (hstep : s.kernel.loop reader .begin = some k') :
    (s.after reader k' .begin).Inv reader := by
  rw [Kernel.loop] at hstep
  split at hstep
  · rename_i id hpc
    have hread : ¬ s.kernel.pc.Reading := by rw [hpc]; exact not_false
    by_cases hid : id ∈ s.kernel.executor.tasks
    · rw [if_neg (not_not.mpr hid)] at hstep
      split_ifs at hstep with hreader hnew
      · obtain rfl := Option.some.inj hstep
        subst hreader
        have henter := h.enter hpc hid
        rw [if_pos hnew] at henter
        exact henter
      · obtain rfl := Option.some.inj hstep
        subst hreader
        have henter := h.enter hpc hid
        rw [if_neg hnew] at henter
        exact henter
      · obtain rfl := Option.some.inj hstep
        exact h.move hread Iff.rfl not_false (fun hp => by cases hp)
          fun hp => hreader (Pc.polling.inj hp)
    · rw [if_pos hid] at hstep
      obtain rfl := Option.some.inj hstep
      exact h.move hread Iff.rfl not_false (fun hp => by cases hp) fun hp => by cases hp
  · cases hstep

/-- The other steps of the loop are all taken outside the reader's poll. -/
theorem Inv.loop (h : s.Inv reader) (hstep : s.kernel.loop reader e = some k') :
    (s.after reader k' e).Inv reader := by
  cases e with
  | spawn id => exact h.spawn hstep
  | begin => exact h.begin hstep
  | run =>
    rw [Kernel.loop] at hstep
    split_ifs at hstep with hpc
    obtain rfl := Option.some.inj hstep
    exact h.move (by rw [hpc]; exact not_false) Iff.rfl not_false (fun hp => by cases hp)
      fun hp => by cases hp
  | pop =>
    rw [Kernel.loop] at hstep
    split_ifs at hstep with hpc
    have hread : ¬ s.kernel.pc.Reading := by rw [hpc]; exact not_false
    split at hstep
    · obtain rfl := Option.some.inj hstep
      exact h.move hread Iff.rfl not_false (fun hp => by cases hp) fun hp => by cases hp
    · cases hstep
    · obtain rfl := Option.some.inj hstep
      exact h.move hread Iff.rfl not_false (fun hp => by cases hp) fun hp => by cases hp
  | finish done =>
    rw [Kernel.loop] at hstep
    split at hstep
    · rename_i id hpc
      obtain rfl := Option.some.inj hstep
      refine h.move (by rw [hpc]; exact not_false) ?_ not_false (fun hp => by cases hp)
        fun hp => by cases hp
      have hne : reader ≠ id := fun heq => h.other (heq ▸ hpc)
      split_ifs
      · exact Finset.mem_erase.trans (and_iff_right hne)
      · exact Iff.rfl
    · cases hstep
  | disable =>
    rw [Kernel.loop] at hstep
    split_ifs at hstep with hpc
    obtain rfl := Option.some.inj hstep
    exact h.move (by rw [hpc]; exact not_false) Iff.rfl not_false (fun hp => by cases hp)
      fun hp => by cases hp
  | check =>
    rw [Kernel.loop] at hstep
    split_ifs at hstep with hpc hempty
    all_goals
      obtain rfl := Option.some.inj hstep
      exact h.move (by rw [hpc]; exact not_false) Iff.rfl not_false (fun hp => by cases hp)
        fun hp => by cases hp
  | consume | wake _ | key _ | interrupt => cases hstep

/-! ## The reader's steps -/

/-- The reader's poll goes on with the cell as it is. -/
theorem Inv.goOn (h : s.Inv reader) (hread : s.kernel.pc.Reading) {pc : Pc} (hread' : pc.Reading)
    {scancodes : Option (ArrayQueue UInt8)} (hqueue : scancodes.isSome = true)
    (hunread : s.kernel.waker.isSome = true → (∃ queue ∈ scancodes, queue.unread ≠ []) →
      pc = .second ∨ pc = .take)
    (hdone : pc = .handle ∨ pc = .create → s.kernel.waker = none) :
    Inv reader ⟨⟨s.kernel.executor, scancodes, s.kernel.waker, pc, s.kernel.suspended⟩,
      s.strong, s.freed⟩ where
  strong := by
    rw [h.strong, holders_mk, holders, cell, if_pos hread, if_pos hread']
  held := h.held
  reading _ := h.reading hread
  created _ := hqueue
  queue _ _ := hqueue
  unread := hunread
  done := hdone
  setup hp := by
    obtain rfl : pc = .setup := hp
    exact hread'.elim
  other hp := by
    obtain rfl : pc = .polling reader := hp
    exact hread'.elim
  freed := h.freed

/-- The reader's poll goes on with the cell empty. -/
theorem Inv.goOn_of_none (h : s.Inv reader) (hread : s.kernel.pc.Reading) {pc : Pc}
    (hread' : pc.Reading) {scancodes : Option (ArrayQueue UInt8)}
    (hqueue : scancodes.isSome = true) (hwaker : s.kernel.waker = none) :
    Inv reader ⟨⟨s.kernel.executor, scancodes, s.kernel.waker, pc, s.kernel.suspended⟩,
      s.strong, s.freed⟩ := by
  refine h.goOn hread hread' hqueue (fun hw => ?_) fun _ => hwaker
  rw [hwaker] at hw
  cases hw

/-- In the reader's poll the references are the task's, the poll's and the cell's. -/
theorem Inv.strong_of_reading (h : s.Inv reader) (hread : s.kernel.pc.Reading) :
    s.strong = 2 + cell s.kernel := by
  rw [h.strong, holders, if_pos (h.reading hread), if_pos hread]

/-- A clone goes into the cell. -/
theorem Inv.register (h : s.Inv reader) (hpc : s.kernel.pc = .register) :
    Inv reader ⟨⟨s.kernel.executor, s.kernel.scancodes, some reader, .second,
      s.kernel.suspended⟩, s.strong + 1 - cell s.kernel, s.freed⟩ := by
  have hread : s.kernel.pc.Reading := by rw [hpc]; trivial
  have hmem := h.reading hread
  have hsome := h.queue hread (by rw [hpc]; decide)
  refine ⟨?_, fun _ => hmem, fun _ => hmem, fun _ => hsome, fun _ _ => hsome, fun _ _ => .inl rfl,
    fun hp => ?_, fun hp => (by cases hp), fun hp => (by cases hp), h.freed⟩
  · dsimp only
    rw [holders_mk, if_pos hmem, if_pos (by trivial), h.strong_of_reading hread]
    simp only [Option.isSome_some, if_true]
    omega
  · rcases hp with hp | hp <;> cases hp

/-- The poll returns `Pending` with nothing unread, and its clone is dropped. -/
theorem Inv.suspend (h : s.Inv reader) (hread : s.kernel.pc.Reading)
    (hsc : ¬ s.kernel.HasScancode) :
    Inv reader ⟨⟨s.kernel.executor, s.kernel.scancodes, s.kernel.waker, .ready, true⟩,
      s.strong - 1, s.freed⟩ := by
  refine ⟨?_, h.held, fun hr => hr.elim, h.created, fun hr => hr.elim,
    fun _ hunread => absurd hunread hsc, fun hp => ?_, fun hp => (by cases hp),
    fun hp => (by cases hp), h.freed⟩
  · dsimp only
    rw [holders_mk, if_pos (h.reading hread), if_neg (by exact not_false),
      h.strong_of_reading hread, cell]
    omega
  · rcases hp with hp | hp <;> cases hp

/-- The cell is emptied. -/
theorem Inv.take (h : s.Inv reader) (hpc : s.kernel.pc = .take) :
    Inv reader ⟨⟨s.kernel.executor, s.kernel.scancodes, none, .handle, s.kernel.suspended⟩,
      s.strong - cell s.kernel, s.freed⟩ := by
  have hread : s.kernel.pc.Reading := by rw [hpc]; trivial
  have hmem := h.reading hread
  refine ⟨?_, fun hw => (by cases hw), fun _ => hmem, fun hw => (by cases hw),
    fun _ _ => h.queue hread (by rw [hpc]; decide), fun hw => (by cases hw), fun _ => rfl,
    fun hp => (by cases hp), fun hp => (by cases hp), h.freed⟩
  dsimp only
  rw [holders_mk, if_pos hmem, if_pos (by trivial), h.strong_of_reading hread,
    Nat.add_sub_cancel]
  rfl

/-- The count stays as it is, but where the reader registers, takes or suspends. -/
theorem after_goOn (hpc : s.kernel.pc ≠ .register ∧ s.kernel.pc ≠ .take) (hready : k'.pc ≠ .ready) :
    s.after reader k' .consume = ⟨k', s.strong, s.freed⟩ := by
  rw [after, if_neg hpc.1, if_neg hpc.2, if_neg hready]

/-- A queue that pops nothing has nothing unread. -/
theorem unread_of_pop {queue : ArrayQueue UInt8} (hqueue : k.scancodes = some queue)
    (hpop : queue.pop = none) : ¬ k.HasScancode := by
  rintro ⟨queue', hqueue', hne⟩
  obtain rfl := Option.some.inj (hqueue.symm.trans hqueue')
  exact hne (ArrayQueue.pop_eq_none.mp hpop)

/-- A scancode that the first pop returns has taken the waker. -/
theorem Inv.waker_of_pop (h : s.Inv reader) (hpc : s.kernel.pc = .first) {o : Option UInt8}
    {queue queue' : ArrayQueue UInt8} (hqueue : s.kernel.scancodes = some queue)
    (hpop : queue.pop = some (o, queue')) : s.kernel.waker = none := by
  by_contra hw
  have hsc : s.kernel.HasScancode :=
    ⟨queue, hqueue, by rw [ArrayQueue.unread_pop hpop]; exact List.cons_ne_nil _ _⟩
  rcases h.unread (Option.isSome_iff_ne_none.mpr hw) hsc with hp | hp <;> cases hpc.symm.trans hp

/-- **The reader's steps**: where it can return, the cell is empty. -/
theorem Inv.consume (h : s.Inv reader) (hstep : s.kernel.consume reader = some k') :
    (s.after reader k' .consume).Inv reader := by
  rw [Kernel.consume] at hstep
  split at hstep
  case h_1 hpc _ =>
    obtain rfl := Option.some.inj hstep
    rw [after_goOn (by simp [hpc]) (by simp)]
    exact h.goOn_of_none (by rw [hpc]; trivial) (by trivial) rfl (h.done (.inr hpc))
  case h_2 queue hpc hqueue =>
    have hread : s.kernel.pc.Reading := by rw [hpc]; trivial
    split at hstep
    · -- nothing is there
      rename_i hpop
      obtain rfl := Option.some.inj hstep
      rw [after_goOn (by simp [hpc]) (by simp)]
      refine h.goOn hread (by trivial) (by rw [hqueue]; rfl) (fun _ hsc => ?_) fun hp => ?_
      · exact absurd hsc (unread_of_pop hqueue hpop)
      · rcases hp with hp | hp <;> cases hp
    · cases hstep
    · rename_i hpop
      obtain rfl := Option.some.inj hstep
      rw [after_goOn (by simp [hpc]) (by simp)]
      exact h.goOn_of_none hread (by trivial) rfl (h.waker_of_pop hpc hqueue hpop)
  case h_3 hpc =>
    obtain rfl := Option.some.inj hstep
    rw [after, if_pos hpc]
    exact h.register hpc
  case h_4 queue hpc hqueue =>
    have hread : s.kernel.pc.Reading := by rw [hpc]; trivial
    split at hstep
    · rename_i hpop
      obtain rfl := Option.some.inj hstep
      rw [after, if_neg (by rw [hpc]; decide), if_neg (by rw [hpc]; decide), if_pos rfl]
      exact h.suspend hread (unread_of_pop hqueue hpop)
    · cases hstep
    · obtain rfl := Option.some.inj hstep
      rw [after_goOn (by simp [hpc]) (by simp)]
      refine h.goOn hread (by trivial) rfl (fun _ _ => .inr rfl) fun hp => ?_
      rcases hp with hp | hp <;> cases hp
  case h_5 hpc =>
    obtain rfl := Option.some.inj hstep
    rw [after, if_neg (by rw [hpc]; decide), if_pos hpc]
    exact h.take hpc
  case h_6 hpc =>
    obtain rfl := Option.some.inj hstep
    have hread : s.kernel.pc.Reading := by rw [hpc]; trivial
    rw [after_goOn (by simp [hpc]) (by simp)]
    exact h.goOn_of_none hread (by trivial) (h.queue hread (by rw [hpc]; decide))
      (h.done (.inl hpc))
  case h_7 => cases hstep

/-- **The reader returns**: nobody else has a reference. -/
theorem Inv.done_step (h : s.Inv reader) (hstep : s.step reader .done = some s') :
    s'.Inv reader := by
  rw [step] at hstep
  split_ifs at hstep with hpc
  obtain rfl := Option.some.inj hstep
  have hread : s.kernel.pc.Reading := by rcases hpc with hpc | hpc <;> rw [hpc] <;> trivial
  have hwaker := h.done hpc
  have hnone : s.kernel.waker.isSome ≠ true := by rw [hwaker]; decide
  refine ⟨?_, fun hw => absurd hw hnone, fun hr => hr.elim, fun hw => absurd hw hnone,
    fun hr => hr.elim, fun hw => absurd hw hnone, fun _ => hwaker, fun _ => hwaker,
    fun hp => (by cases hp), h.freed⟩
  dsimp only [Executor.remove]
  rw [holders_mk, if_neg (Finset.notMem_erase _ _), if_neg (by exact not_false), if_neg hnone,
    h.strong_of_reading hread, cell, if_neg hnone]

/-! ## Wakes and interrupts -/

theorem Inv.resume (h : s.Inv reader) : Inv reader ⟨s.kernel.resume, s.strong, s.freed⟩ := by
  by_cases hpc : s.kernel.pc = .halted
  · rw [Kernel.resume, if_pos hpc]
    exact h.move (by rw [hpc]; exact not_false) Iff.rfl not_false (fun hp => by cases hp)
      fun hp => by cases hp
  · rw [Kernel.resume_of_ne hpc]
    exact h

/-- A wake changes the queue alone. -/
theorem Inv.wakeTask (h : s.Inv reader) (id : TaskId) :
    Inv reader ⟨⟨s.kernel.executor.wakeTask id, s.kernel.scancodes, s.kernel.waker, s.kernel.pc,
      s.kernel.suspended⟩, s.strong, s.freed⟩ := by
  have htasks : (s.kernel.executor.wakeTask id).tasks = s.kernel.executor.tasks :=
    Kernel.tasks_wakeTask _
  refine ⟨?_, fun hw => htasks ▸ h.held hw, fun hr => htasks ▸ h.reading hr, h.created, h.queue,
    h.unread, h.done, h.setup, h.other, h.freed⟩
  dsimp only
  rw [holders_mk, htasks]
  exact h.strong

theorem after_key_resume (scancode : UInt8) : s.after reader k'.resume (.key scancode) =
    ⟨(s.after reader k' (.key scancode)).kernel.resume,
      (s.after reader k' (.key scancode)).strong, (s.after reader k' (.key scancode)).freed⟩ := by
  dsimp only [after, Kernel.resume]
  split_ifs <;> rfl

/-- **The interrupt handler drops a reference of the cell**, and the task has another. -/
theorem Inv.key (h : s.Inv reader) (scancode : UInt8) :
    (s.after reader (s.kernel.addScancode scancode) (.key scancode)).Inv reader := by
  have hsame : s.after reader s.kernel (.key scancode) = s := if_pos rfl
  rw [Kernel.addScancode]
  rcases hqueue : s.kernel.scancodes with _ | queue
  · exact hsame.symm ▸ h
  · dsimp only
    rcases hpush : queue.push scancode with _ | queue'
    · exact hsame.symm ▸ h
    · dsimp only
      rw [Kernel.wakeReader]
      dsimp only
      split
      · -- the cell is empty
        rename_i hwaker
        have hnone : s.kernel.waker.isSome ≠ true := by rw [hwaker]; decide
        rw [after, if_pos rfl]
        exact ⟨h.strong, fun hw => absurd hw hnone, h.reading, fun _ => rfl, fun _ _ => rfl,
          fun hw => absurd hw hnone, h.done, h.setup, h.other, h.freed⟩
      · rename_i id hwaker
        have hsome : s.kernel.waker.isSome = true := by rw [hwaker]; rfl
        have hmem := h.held hsome
        have htasks : (s.kernel.executor.wakeTask id).tasks = s.kernel.executor.tasks :=
          Kernel.tasks_wakeTask _
        have hstrong := h.strong
        rw [holders, cell, if_pos hmem, if_pos hsome] at hstrong
        rw [after, if_neg (by rw [hwaker]; exact (Option.some_ne_none _).symm)]
        refine ⟨?_, fun hw => (by cases hw), fun hr => htasks ▸ h.reading hr, fun _ => rfl,
          fun _ _ => rfl, fun hw => (by cases hw), fun _ => rfl, fun _ => rfl, h.other, ?_⟩
        · rw [holders_mk, htasks, if_pos hmem, hstrong]
          simp
        · have hlast : s.strong ≠ 1 := by omega
          simp only [h.freed, hlast, decide_false, Bool.or_false]

/-- **One step keeps the invariant.** -/
theorem Inv.step {e : RefEvent} (h : s.Inv reader) (hstep : s.step reader e = some s') :
    s'.Inv reader := by
  cases e with
  | done => exact h.done_step hstep
  | step e =>
    obtain ⟨k', hk', rfl⟩ := Option.map_eq_some_iff.mp hstep
    cases e with
    | consume => exact h.consume hk'
    | wake id =>
      dsimp only [Kernel.step] at hk'
      split_ifs at hk'
      obtain rfl := Option.some.inj hk'
      exact (h.wakeTask id).resume
    | key scancode =>
      dsimp only [Kernel.step] at hk'
      split_ifs at hk'
      obtain rfl := Option.some.inj hk'
      rw [after_key_resume]
      exact (h.key scancode).resume
    | interrupt =>
      dsimp only [Kernel.step] at hk'
      split_ifs at hk'
      obtain rfl := Option.some.inj hk'
      exact h.resume
    | spawn id => exact h.loop (e := .spawn id) hk'
    | run => exact h.loop (e := .run) hk'
    | pop => exact h.loop (e := .pop) hk'
    | begin => exact h.loop (e := .begin) hk'
    | finish done => exact h.loop (e := .finish done) hk'
    | disable => exact h.loop (e := .disable) hk'
    | check => exact h.loop (e := .check) hk'

theorem Inv.strong_eq_zero (h : s.Inv reader) (hgone : reader ∉ s.kernel.executor.tasks) :
    s.strong = 0 := by
  have hread : ¬ s.kernel.pc.Reading := fun hr => hgone (h.reading hr)
  have hwaker : ¬ s.kernel.waker.isSome = true := fun hw => hgone (h.held hw)
  rw [h.strong, holders, cell, if_neg hgone, if_neg hread, if_neg hwaker]

/-- **The keyboard handler never drops the last reference** to the reader's waker, so it frees
nothing; every reference has its holder, and none is left when the task is gone. -/
theorem handler_frees_nothing (hrun : Run (step reader) (fun _ _ => True) start events s) :
    s.freed = false ∧ s.strong = holders reader s.kernel ∧
      (reader ∉ s.kernel.executor.tasks → s.strong = 0) := by
  have hinv : s.Inv reader := hrun.invariant (P := Inv reader)
    (fun _ _ _ h _ hstep => h.step hstep) inv_start
  exact ⟨hinv.freed, hinv.strong, hinv.strong_eq_zero⟩

/-- The reader is suspended, a key wakes it, and it returns. -/
def readsOne : List RefEvent :=
  [.step (.spawn 0), .step .run, .step .pop, .step .begin, .step .consume, .step .consume,
    .step .consume, .step .consume, .step (.key 30), .step .pop, .step .begin, .step .consume,
    .done]

theorem handler_frees_nothing_readsOne : ∃ s, Run (step 0) (fun _ _ => True) start readsOne s ∧
    s.freed = false ∧ s.strong = 0 := by
  have hgo : ((runFrom (step 0) (fun _ _ => True) start readsOne).any
      fun s => decide (0 ∉ s.kernel.executor.tasks)) = true := by
    decide +kernel
  simp only [Option.any_eq_true, decide_eq_true_eq] at hgo
  obtain ⟨s, hs, hgone⟩ := hgo
  have hrun := Run.of_runFrom hs
  have hfrees := handler_frees_nothing hrun
  exact ⟨s, hrun, hfrees.1, hfrees.2.2 hgone⟩

end Refs

end YontiOs.Task
