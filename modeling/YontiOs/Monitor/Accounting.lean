import YontiOs.Allocator.GlobalAlloc
import YontiOs.Memory.Accounting
import YontiOs.Shell.Panics
import YontiOs.Task.Keyboard

/-!
# Monitor/Accounting — what `mem` reports

The heap, the frame allocator, the executor and the interrupt handlers each keep some of the
counters.  `Kernel` is all of them at work, in any order; each step is a call, with the counters it
updates.

In every run the counters agree with the state of the parts they count, so the lines that `mem`
prints are true (`mem_reports`).
-/

namespace YontiOs.Monitor

open Tlsf Trace
open YontiOs.Task (Executor TaskId)

/-- `snapshot()`. -/
def MonitorData.snapshot (m : MonitorData) : MetricsSnapshot where
  allocCount := m.allocCount
  freeCount := m.freeCount
  currentAllocated := m.currentAllocated
  peakAllocated := m.peakAllocated
  allocatedFrames := m.allocatedFrames
  totalFrames := m.totalFrames
  tasksSpawned := m.tasksSpawned
  tasksCompleted := m.tasksCompleted
  activeTasks := m.activeTasks
  interruptCounts := m.interruptCounts
  timerTicks := m.timerTicks
  droppedWakes := m.droppedWakes

/-- The parts of the kernel that are counted; the counters are with the heap's books. -/
structure Kernel where
  books : Books
  frames : Buddy.Sys
  executor : Executor
  polling : Option TaskId

/-- What happens. -/
inductive KernelOp where
  | heap (op : GlobalOp)
  | allocateFrames (order : ℕ)
  | deallocateFrames (frame order : ℕ)
  | spawn (id : TaskId)
  | wake (id : TaskId)
  /-- A turn of the loop of `run_ready_tasks`, up to the poll of the task. -/
  | poll
  /-- The poll returns, and says whether the task is done. -/
  | finish (done : Bool)
  | timer (tsc : ℕ)
  | keyboard

namespace Kernel

def monitor (k : Kernel) : MonitorData := k.books.global.monitor

/-- The counters are updated. -/
def count (k : Kernel) (f : MonitorData → MonitorData) : Kernel :=
  { k with books := { k.books with global := { k.books.global with monitor := f k.monitor } } }

/-- One step; `none` is a panic. -/
def step (k : Kernel) : KernelOp → Option Kernel
  | .heap op => do some { k with books := ← k.books.exec op }
  | .allocateFrames order => do
    let (frame, alloc) ← k.frames.alloc.allocateFrameOrder order
    let k := if frame.isSome then k.count (·.incAllocatedFrames (2 ^ order)) else k
    some { k with frames := ⟨alloc, (frame.map fun f => (f, order)).toList ++ k.frames.live⟩ }
  | .deallocateFrames frame order => do
    let alloc ← k.frames.alloc.deallocateFrameOrder frame order
    let k := if order ≤ Buddy.maxOrder then k.count (·.decAllocatedFrames (2 ^ order)) else k
    some { k with frames := ⟨alloc, k.frames.live.erase (frame, order)⟩ }
  | .spawn id => do
    let executor ← k.executor.spawn id
    some { k.count (·.incTaskSpawned) with executor := executor }
  | .wake id =>
    match k.executor.taskQueue.push id with
    | some _ => some { k with executor := k.executor.wakeTask id }
    | none => some (k.count (·.incDroppedWake))
  | .poll =>
    match k.polling, k.executor.taskQueue.pop with
    | some _, _ => none
    | none, none => some k
    -- a slot that was never written
    | none, some (none, _) => none
    | none, some (some id, q) =>
      some { k with
        executor := { k.executor with taskQueue := q }
        polling := if id ∈ k.executor.tasks then some id else none }
  | .finish done =>
    match k.polling with
    | none => none
    | some id =>
      if done then
        some { k.count (·.incTaskCompleted) with executor := k.executor.remove id, polling := none }
      else some { k with polling := none }
  | .timer tsc => do
    let k := k.count fun m => (m.incInterrupt 32).incTimerTick
    some { k with books := ← k.books.exec (.record ⟨.interrupt, 32, 0, tsc⟩) }
  | .keyboard => some (k.count (·.incInterrupt 33))

/-- Users of the heap and of the frames keep to what is theirs. -/
def Allowed (k : Kernel) : KernelOp → Prop
  | .heap op => k.books.Allowed op
  | .deallocateFrames frame order => (frame, order) ∈ k.frames.live
  | _ => True

instance (k : Kernel) : ∀ op, Decidable (k.Allowed op)
  | .heap op => inferInstanceAs (Decidable (k.books.Allowed op))
  | .deallocateFrames frame order => inferInstanceAs (Decidable ((frame, order) ∈ k.frames.live))
  | .allocateFrames _ | .spawn _ | .wake _ | .poll | .finish _ | .timer _ | .keyboard =>
    inferInstanceAs (Decidable True)

end Kernel

/-! ## The counters of each part -/

variable {H n : ℕ} {G : Buddy.Layout} {Q : Set (ℕ × ℕ)} {L : ℕ → List ℕ} {B : List (ℕ × ℕ)}
  {k k' : Kernel} {op : KernelOp} {ops : List KernelOp} {b b' : Books} {m m' : MonitorData}
  {s : Buddy.Sys} {id : TaskId}

/-- The frames of live blocks. -/
def framesHeld (live : List (ℕ × ℕ)) : ℕ := (live.map fun b => 2 ^ b.2).sum

theorem framesHeld_eq (h : s.Inv G Q L B) : framesHeld s.live = s.alloc.allocatedCount := by
  rw [h.count, framesHeld, h.live, List.map_map]
  rfl

/-- The heap's counters may have changed, and no others. -/
def HeapOnly (m m' : MonitorData) : Prop :=
  m' = { m with
    allocCount := m'.allocCount
    freeCount := m'.freeCount
    currentAllocated := m'.currentAllocated
    peakAllocated := m'.peakAllocated }

theorem heapOnly_exec {op : GlobalOp} (h : b.exec op = some b') :
    HeapOnly b.global.monitor b'.global.monitor := by
  cases op with
  | alloc layout tsc =>
    simp only [Books.exec, Global.alloc, Option.bind_eq_bind, Option.bind_eq_some_iff] at h
    obtain ⟨⟨p, g⟩, ⟨⟨p', tlsf⟩, -, halloc⟩, h⟩ := h
    have hg : HeapOnly b.global.monitor g.monitor := by
      split_ifs at halloc
      · obtain ⟨-, rfl⟩ := Prod.mk.inj (Option.some.inj halloc)
        rfl
      · obtain ⟨m, hm, halloc⟩ := Option.bind_eq_some_iff.mp halloc
        obtain ⟨-, rfl⟩ := Prod.mk.inj (Option.some.inj halloc)
        obtain ⟨new, -, hm⟩ := Option.bind_eq_some_iff.mp hm
        obtain rfl := Option.some.inj hm
        rfl
    split_ifs at h <;> obtain rfl := Option.some.inj h <;> exact hg
  | dealloc ptr layout tsc =>
    simp only [Books.exec, Global.dealloc, Option.bind_eq_bind, Option.bind_eq_some_iff] at h
    obtain ⟨g, ⟨tlsf, -, hg⟩, h⟩ := h
    obtain rfl := Option.some.inj hg
    obtain rfl := Option.some.inj h
    rfl
  | store addr byte =>
    obtain rfl := Option.some.inj h
    rfl
  | record e =>
    obtain rfl := Option.some.inj h
    rfl

/-- **The counters of frames, tasks and ticks are right.** -/
structure Counts (G : Buddy.Layout) (frames : Buddy.Sys) (tasks : Finset TaskId) (m : MonitorData) :
    Prop where
  allocated : m.allocatedFrames = framesHeld frames.live
  total : m.totalFrames = G.total
  active : m.activeTasks = fetchAdd 0 tasks.card
  spawned : m.tasksSpawned = fetchAdd m.tasksCompleted tasks.card
  ticks : m.timerTicks = m.interruptCounts[0]

/-- **The counters agree with the parts they count.** -/
structure Kernel.Inv (H n : ℕ) (G : Buddy.Layout) (Q : Set (ℕ × ℕ)) (k : Kernel) : Prop where
  books : k.books.Inv H n
  frames : ∃ L B, k.frames.Inv G Q L B
  counts : Counts G k.frames k.executor.tasks k.monitor
  polling : ∀ id ∈ k.polling, id ∈ k.executor.tasks

namespace Counts

variable {frames frames' : Buddy.Sys} {tasks : Finset TaskId} {c : ℕ}

theorem heapOnly (h : Counts G frames tasks m) (hm : HeapOnly m m') : Counts G frames tasks m' := by
  rw [HeapOnly] at hm
  rw [hm]
  exact ⟨h.allocated, h.total, h.active, h.spawned, h.ticks⟩

theorem frames_eq (h : Counts G frames tasks m)
    (hlive : framesHeld frames'.live = framesHeld frames.live) : Counts G frames' tasks m :=
  ⟨h.allocated.trans hlive.symm, h.total, h.active, h.spawned, h.ticks⟩

theorem incAllocatedFrames (h : Counts G frames tasks m)
    (hlive : framesHeld frames'.live = framesHeld frames.live + c)
    (hlt : framesHeld frames'.live < 2 ^ 64) :
    Counts G frames' tasks (m.incAllocatedFrames c) where
  allocated := by
    simp only [MonitorData.incAllocatedFrames, h.allocated]
    rw [hlive] at hlt ⊢
    exact fetchAdd_of_lt hlt
  total := h.total
  active := h.active
  spawned := h.spawned
  ticks := h.ticks

theorem decAllocatedFrames (h : Counts G frames tasks m)
    (hlive : framesHeld frames.live = framesHeld frames'.live + c)
    (hlt : framesHeld frames.live < 2 ^ 64) :
    Counts G frames' tasks (m.decAllocatedFrames c) where
  allocated := by
    have hle : c ≤ framesHeld frames.live := hlive ▸ Nat.le_add_left _ _
    simp only [MonitorData.decAllocatedFrames, h.allocated]
    rw [fetchSub_of_le hlt hle, hlive, Nat.add_sub_cancel]
  total := h.total
  active := h.active
  spawned := h.spawned
  ticks := h.ticks

theorem incTaskSpawned (h : Counts G frames tasks m) (hid : id ∉ tasks) :
    Counts G frames (insert id tasks) m.incTaskSpawned where
  allocated := h.allocated
  total := h.total
  active := by
    simp only [MonitorData.incTaskSpawned, Finset.card_insert_of_notMem hid, h.active, fetchAdd]
    omega
  spawned := by
    simp only [MonitorData.incTaskSpawned, Finset.card_insert_of_notMem hid, h.spawned, fetchAdd]
    omega
  ticks := h.ticks

theorem incTaskCompleted (h : Counts G frames tasks m) (hid : id ∈ tasks) :
    Counts G frames (tasks.erase id) m.incTaskCompleted where
  allocated := h.allocated
  total := h.total
  active := by
    have hcard := Finset.card_erase_add_one hid
    simp only [MonitorData.incTaskCompleted, h.active, fetchAdd, fetchSub]
    omega
  spawned := by
    have hcard := Finset.card_erase_add_one hid
    simp only [MonitorData.incTaskCompleted, h.spawned, fetchAdd]
    omega
  ticks := h.ticks

theorem incDroppedWake (h : Counts G frames tasks m) : Counts G frames tasks m.incDroppedWake :=
  ⟨h.allocated, h.total, h.active, h.spawned, h.ticks⟩

theorem timer (h : Counts G frames tasks m) :
    Counts G frames tasks (m.incInterrupt 32).incTimerTick where
  allocated := h.allocated
  total := h.total
  active := h.active
  spawned := h.spawned
  ticks := by
    simp [MonitorData.incTimerTick, MonitorData.incInterrupt, h.ticks]

theorem keyboard (h : Counts G frames tasks m) : Counts G frames tasks (m.incInterrupt 33) where
  allocated := h.allocated
  total := h.total
  active := h.active
  spawned := h.spawned
  ticks := by
    simp [MonitorData.incInterrupt, h.ticks]

end Counts

/-! ## The steps -/

namespace Kernel

theorem Inv.heap (h : k.Inv H n G Q) (hn : n < 2 ^ 32) {op : GlobalOp} (hok : k.books.Allowed op)
    (hexec : k.books.exec op = some b') : Inv H n G Q { k with books := b' } :=
  ⟨h.books.exec hn hok hexec, h.frames, h.counts.heapOnly (heapOnly_exec hexec), h.polling⟩

/-- Live frames are tracked frames. -/
theorem framesHeld_lt (h : s.Inv G Q L B) (hG : G.total < 2 ^ 64) : framesHeld s.live < 2 ^ 64 := by
  rw [framesHeld_eq h, h.count]
  exact h.holds.pool.units_le.trans_lt hG

theorem Inv.allocateFrames (h : k.Inv H n G Q) (hG : G.total < 2 ^ 64) (hQ : G.Asks Q) {order : ℕ}
    (hstep : k.step (.allocateFrames order) = some k') : k'.Inv H n G Q := by
  obtain ⟨L, B, hframes⟩ := h.frames
  simp only [step, Option.bind_eq_bind, Option.bind_eq_some_iff] at hstep
  obtain ⟨⟨frame, alloc⟩, halloc, hk'⟩ := hstep
  have hexec : k.frames.exec (.allocate order) =
      some ⟨alloc, (frame.map fun f => (f, order)).toList ++ k.frames.live⟩ := by
    simp only [Buddy.Sys.exec, halloc, Option.bind_eq_bind, Option.bind_some]
  have hok : k.frames.Allowed (.allocate order) := trivial
  obtain ⟨L', B', hframes'⟩ := (hframes.exec (.inl hQ) hok).post _ hexec
  obtain rfl := Option.some.inj hk'
  rcases frame with _ | f
  · exact ⟨h.books, ⟨L', B', hframes'⟩, h.counts.frames_eq rfl, h.polling⟩
  · refine ⟨h.books.setMonitor rfl rfl rfl rfl, ⟨L', B', hframes'⟩, ?_, h.polling⟩
    exact h.counts.incAllocatedFrames (Nat.add_comm _ _) (framesHeld_lt hframes' hG)

theorem Inv.deallocateFrames (h : k.Inv H n G Q) (hG : G.total < 2 ^ 64) (hQ : G.Asks Q)
    {frame order : ℕ} (hlive : (frame, order) ∈ k.frames.live)
    (hstep : k.step (.deallocateFrames frame order) = some k') : k'.Inv H n G Q := by
  obtain ⟨L, B, hframes⟩ := h.frames
  simp only [step, Option.bind_eq_bind, Option.bind_eq_some_iff] at hstep
  obtain ⟨alloc, halloc, hk'⟩ := hstep
  have hexec : k.frames.exec (.deallocate frame order) =
      some ⟨alloc, k.frames.live.erase (frame, order)⟩ := by
    simp only [Buddy.Sys.exec, halloc, Option.bind_eq_bind, Option.bind_some]
  have hok : k.frames.Allowed (.deallocate frame order) := hlive
  obtain ⟨L', B', hframes'⟩ := (hframes.exec (.inl hQ) hok).post _ hexec
  -- a live block has an order there is a list for
  have horder : order ≤ Buddy.maxOrder := by
    rw [hframes.live] at hlive
    obtain ⟨⟨i, l⟩, hb, heq⟩ := List.mem_map.mp hlive
    obtain ⟨-, rfl⟩ := Prod.mk.inj heq
    exact (hframes.holds.pool.used_fits _ hb).order_le
  have hsum : framesHeld k.frames.live =
      2 ^ order + framesHeld (k.frames.live.erase (frame, order)) :=
    ((List.perm_cons_erase hlive).map fun b : ℕ × ℕ => 2 ^ b.2).sum_eq
  rw [if_pos horder] at hk'
  obtain rfl := Option.some.inj hk'
  refine ⟨h.books.setMonitor rfl rfl rfl rfl, ⟨L', B', hframes'⟩, ?_, h.polling⟩
  exact h.counts.decAllocatedFrames (hsum.trans (Nat.add_comm _ _)) (framesHeld_lt hframes hG)

/-- The executor's queue moves on. -/
theorem Inv.requeue (h : k.Inv H n G Q) (ex : Executor) (htasks : ex.tasks = k.executor.tasks)
    (p : Option TaskId) (hp : ∀ id ∈ p, id ∈ k.executor.tasks) :
    Inv H n G Q { k with executor := ex, polling := p } :=
  ⟨h.books, h.frames, htasks ▸ h.counts, fun id hid => htasks ▸ hp id hid⟩

/-- **One step keeps the counters right.** -/
theorem Inv.step (h : k.Inv H n G Q) (hn : n < 2 ^ 32) (hG : G.total < 2 ^ 64) (hQ : G.Asks Q)
    (hok : k.Allowed op) (hstep : k.step op = some k') : k'.Inv H n G Q := by
  cases op with
  | heap op =>
    obtain ⟨b', hexec, hk'⟩ := Option.bind_eq_some_iff.mp hstep
    obtain rfl := Option.some.inj hk'
    exact h.heap hn hok hexec
  | allocateFrames order => exact h.allocateFrames hG hQ hstep
  | deallocateFrames frame order => exact h.deallocateFrames hG hQ hok hstep
  | spawn id =>
    obtain ⟨ex, hspawn, hk'⟩ := Option.bind_eq_some_iff.mp hstep
    obtain rfl := Option.some.inj hk'
    rw [Executor.spawn] at hspawn
    split_ifs at hspawn with hid
    obtain ⟨q, -, hex⟩ := Option.bind_eq_some_iff.mp hspawn
    obtain rfl := Option.some.inj hex
    exact ⟨h.books.setMonitor rfl rfl rfl rfl, h.frames, h.counts.incTaskSpawned hid,
      fun id hid => Finset.mem_insert_of_mem (h.polling id hid)⟩
  | wake id =>
    rw [Kernel.step] at hstep
    split at hstep
    · obtain rfl := Option.some.inj hstep
      exact h.requeue _ (Task.Kernel.tasks_wakeTask _) _ h.polling
    · obtain rfl := Option.some.inj hstep
      exact ⟨h.books.setMonitor rfl rfl rfl rfl, h.frames, h.counts.incDroppedWake, h.polling⟩
  | poll =>
    rw [Kernel.step] at hstep
    split at hstep
    · cases hstep
    · obtain rfl := Option.some.inj hstep
      exact h
    · cases hstep
    · rename_i q _ _
      obtain rfl := Option.some.inj hstep
      refine h.requeue { k.executor with taskQueue := q } rfl _ fun id hid => ?_
      split_ifs at hid with hmem
      · exact Option.some.inj hid ▸ hmem
      · cases hid
  | finish done =>
    rw [Kernel.step] at hstep
    split at hstep
    · cases hstep
    · rename_i id hpoll
      split_ifs at hstep
      · obtain rfl := Option.some.inj hstep
        exact ⟨h.books.setMonitor rfl rfl rfl rfl, h.frames,
          h.counts.incTaskCompleted (h.polling id hpoll), fun _ hid => by cases hid⟩
      · obtain rfl := Option.some.inj hstep
        exact h.requeue _ rfl _ fun _ hid => by cases hid
  | timer tsc =>
    obtain rfl := Option.some.inj hstep
    have hk : Inv H n G Q (k.count fun m => (m.incInterrupt 32).incTimerTick) :=
      ⟨h.books.setMonitor rfl rfl rfl rfl, h.frames, h.counts.timer, h.polling⟩
    have hok : (k.count fun m => (m.incInterrupt 32).incTimerTick).books.Allowed
        (.record ⟨.interrupt, 32, 0, tsc⟩) :=
      ⟨fun heq => (by cases heq), fun heq => (by cases heq)⟩
    exact hk.heap hn hok rfl
  | keyboard =>
    obtain rfl := Option.some.inj hstep
    exact ⟨h.books.setMonitor rfl rfl rfl rfl, h.frames, h.counts.keyboard, h.polling⟩

/-- After boot: a fresh heap, a new frame allocator that has announced its frames, no tasks. -/
def boot (heap : TlsfAllocator) (frames : Buddy.BuddyAllocator) : Kernel :=
  count ⟨.fresh heap, ⟨frames, []⟩, .new, none⟩ (·.setFrameMetrics frames.totalFrames)

variable {heap : TlsfAllocator} {regions : List Buddy.MemoryRegion} {offset : ℕ} {pm : Mem}
  {a₀ : Buddy.BuddyAllocator}

theorem boot_inv (hheap : ∃ bs L, Sys.Inv H ⟨heap, []⟩ bs L ∧ total bs = n)
    (hal : ∀ r ∈ Buddy.BuddyAllocator.usableRegions regions, r.PageAligned)
    (hdis : (Buddy.BuddyAllocator.usableRegions regions).Pairwise Buddy.MemoryRegion.Disjoint)
    (hnew : Buddy.BuddyAllocator.new regions offset pm = some a₀) :
    ∃ h, (boot heap a₀).Inv H n
      (Buddy.layoutOf (Buddy.BuddyAllocator.usableRegions regions) offset h)
      (Buddy.oneRegion (Buddy.BuddyAllocator.usableRegions regions)) := by
  obtain ⟨h, L, hinv, -⟩ := Buddy.inv_of_new hal hdis hnew
  exact ⟨h, ⟨hheap, rfl, rfl, rfl⟩, ⟨L, [], hinv⟩, ⟨rfl, hinv.holds.total_eq, rfl, rfl, rfl⟩, nofun⟩

/-! ## The report -/

/-- The first lines of `mem`, with what the kernel holds in the place of its counters. -/
def report (k : Kernel) (total : ℕ) : List Effect :=
  let m := k.monitor
  let active := k.executor.tasks.card % 2 ^ 64
  [println (s!"alloc: {m.allocCount} allocs, {m.freeCount} frees, " ++
      s!"{inUse k.books.live} bytes in use (peak: {k.books.high})"),
    println (s!"frames: {framesHeld k.frames.live}/{total}  " ++
      s!"tasks: spawned={m.tasksSpawned} completed={m.tasksCompleted} active={active}"),
    println s!"dropped wakes: {m.droppedWakes}  ticks: {m.interruptCounts.getD 0 0}"]

/-- `mem` prints what is held, if the counters are right. -/
theorem Inv.cmdMem (h : k.Inv H n G Q) :
    ∃ irqs, Shell.cmdMem k.monitor.snapshot = some (k.report G.total ++ irqs) := by
  obtain ⟨es, hes⟩ := Shell.cmdMem_returns k.monitor.snapshot
  obtain ⟨irqs, -, hes'⟩ := Option.bind_eq_some_iff.mp hes
  refine ⟨irqs.flatten, ?_⟩
  have hcurrent : inUse k.books.live = k.monitor.currentAllocated := h.books.current.symm
  have hpeak : k.books.high = k.monitor.peakAllocated := h.books.peak.symm
  have hactive : k.executor.tasks.card % 2 ^ 64 = k.monitor.activeTasks := by
    rw [h.counts.active, fetchAdd, Nat.zero_add]
  have hticks : k.monitor.interruptCounts.getD 0 0 = k.monitor.timerTicks := by
    simp [h.counts.ticks, Vector.getD]
  rw [hes, ← hes']
  simp only [report, hcurrent, hpeak, hactive, hticks, ← h.counts.allocated, ← h.counts.total]
  rfl

/-- **`mem` reports the truth**, after any run of the kernel: the bytes and frames in use are those
of the live allocations and of the live blocks, the peak is the most that was in use, the active
tasks are those the executor has, and the ticks are the timer's interrupts.  Allocations less frees
are the live allocations, and tasks spawned less tasks completed are the active ones. -/
theorem mem_reports (mem : Mem) (h0 : 0 < H) (h8 : H % 8 = 0) (hn8 : n % 8 = 0) (h32 : 32 ≤ n)
    (hn : n < 2 ^ 32) (hfits : H + n < 2 ^ 64)
    (hal : ∀ r ∈ Buddy.BuddyAllocator.usableRegions regions, r.PageAligned)
    (hdis : (Buddy.BuddyAllocator.usableRegions regions).Pairwise Buddy.MemoryRegion.Disjoint)
    (hhalf : Buddy.HalvesInRegions (Buddy.BuddyAllocator.usableRegions regions))
    (hnew : Buddy.BuddyAllocator.new regions offset pm = some a₀) :
    ∃ heap, (TlsfAllocator.new mem).init H n = some heap ∧
      ∀ ops k, Run step Allowed (boot heap a₀) ops k →
        (∃ irqs, Shell.cmdMem k.monitor.snapshot =
          some (k.report (Buddy.tracked (Buddy.BuddyAllocator.usableRegions regions)) ++ irqs)) ∧
        k.monitor.allocCount = (k.monitor.freeCount + k.books.live.length) % 2 ^ 64 ∧
        k.monitor.tasksSpawned =
          (k.monitor.tasksCompleted + k.executor.tasks.card) % 2 ^ 64 := by
  obtain ⟨heap, hinit, hfresh⟩ := init_inv mem h0 h8 hn8 h32 hn hfits
  refine ⟨heap, hinit, fun ops k hrun => ?_⟩
  obtain ⟨hdvd, hboot⟩ := boot_inv hfresh hal hdis hnew
  have hG : Buddy.tracked (Buddy.BuddyAllocator.usableRegions regions) < 2 ^ 64 :=
    Buddy.tracked_le.trans_lt (by decide)
  have h := hrun.invariant (P := Inv H n _ _)
    (fun _ _ _ h hok hstep => h.step hn hG hhalf.asks hok hstep) hboot
  exact ⟨h.cmdMem, h.books.balance, h.counts.spawned⟩

/-- Two tasks are spawned, the first allocates 64 bytes and ends, and the timer ticks. -/
def oneTaskEnds : List KernelOp :=
  [.spawn 0, .spawn 1, .poll, .heap (.alloc Books.sixtyFour 10), .finish true,
    .timer 20, .allocateFrames 1]

theorem mem_reports_oneTaskEnds : ∃ heap a₀ k, (TlsfAllocator.new fun _ => 0xcc).init 4096 1024 =
      some heap ∧ Buddy.BuddyAllocator.new Buddy.evenRegions 0 (fun _ => 0) = some a₀ ∧
    Run step Allowed (boot heap a₀) oneTaskEnds k ∧
    (Shell.cmdMem k.monitor.snapshot).map (·.take 3) =
      some [println "alloc: 1 allocs, 0 frees, 64 bytes in use (peak: 64)",
        println "frames: 2/4  tasks: spawned=2 completed=1 active=1",
        println "dropped wakes: 0  ticks: 1"] := by
  have hgo : ((Buddy.BuddyAllocator.new Buddy.evenRegions 0 fun _ => 0).any fun a₀ =>
      ((TlsfAllocator.new fun _ => 0xcc).init 4096 1024).any fun heap =>
      (runFrom step Allowed (boot heap a₀) oneTaskEnds).any fun k =>
        decide (k.monitor.allocCount = 1) && decide (k.monitor.freeCount = 0) &&
        decide (inUse k.books.live = 64) && decide (k.books.high = 64) &&
        decide (framesHeld k.frames.live = 2) && decide (k.monitor.tasksSpawned = 2) &&
        decide (k.monitor.tasksCompleted = 1) && decide (k.executor.tasks.card = 1) &&
        decide (k.monitor.droppedWakes = 0) && decide (k.monitor.interruptCounts.getD 0 0 = 1)) =
      true := by
    decide +kernel
  simp only [Option.any_eq_true, Bool.and_eq_true, decide_eq_true_eq] at hgo
  obtain ⟨a₀, hnew, heap', hinit', k, hk, hall⟩ := hgo
  obtain ⟨heap, hinit, hreports⟩ := mem_reports (H := 4096) (n := 1024) (fun _ => 0xcc) (by decide)
    (by decide) (by decide) (by decide) (by decide) (by decide) (by decide) (by decide)
    Buddy.halvesInRegions_evenRegions hnew
  obtain rfl := Option.some.inj (hinit.symm.trans hinit')
  have hrun := Run.of_runFrom hk
  obtain ⟨⟨irqs, hmem⟩, -⟩ := hreports _ k hrun
  obtain ⟨⟨⟨⟨⟨⟨⟨⟨⟨h1, h2⟩, h3⟩, h4⟩, h5⟩, h6⟩, h7⟩, h8⟩, h9⟩, h10⟩ := hall
  have htotal : Buddy.tracked (Buddy.BuddyAllocator.usableRegions Buddy.evenRegions) = 4 := by
    decide
  refine ⟨heap, a₀, k, hinit, hnew, hrun, ?_⟩
  simp only [hmem, Option.map_some, report, htotal, h1, h2, h3, h4, h5, h6, h7, h8, h9, h10]
  rfl

end Kernel

end YontiOs.Monitor
