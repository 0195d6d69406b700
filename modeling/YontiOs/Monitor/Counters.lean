import YontiOs.Machinery.Word

/-!
# Monitor/Counters — the kernel's counters

The static `MONITOR` of `monitor.rs` and what updates it.  The counters are atomic and wrap.  One
update is more than one atomic operation: `inc_alloc` raises the bytes in use, and then the peak, by
a loop of compare-and-exchange.  `Contexts` has every step of it, for any number of contexts at
once; `incAlloc` is a call that is not interrupted.
-/

namespace YontiOs.Monitor

/-- What `fetch_add(n)` leaves in a counter. -/
def fetchAdd (x n : ℕ) : ℕ := (x + n) % 2 ^ 64

/-- What `fetch_sub(n)` leaves in a counter. -/
def fetchSub (x n : ℕ) : ℕ := (x + (2 ^ 64 - n)) % 2 ^ 64

theorem fetchAdd_of_lt {x n : ℕ} (h : x + n < 2 ^ 64) : fetchAdd x n = x + n := Nat.mod_eq_of_lt h

theorem fetchSub_of_le {x n : ℕ} (hx : x < 2 ^ 64) (h : n ≤ x) : fetchSub x n = x - n := by
  rw [fetchSub]
  omega

structure MonitorData where
  allocCount : ℕ
  freeCount : ℕ
  currentAllocated : ℕ
  peakAllocated : ℕ
  allocatedFrames : ℕ
  totalFrames : ℕ
  tasksSpawned : ℕ
  tasksCompleted : ℕ
  activeTasks : ℕ
  interruptCounts : Vector ℕ 16
  timerTicks : ℕ
  droppedWakes : ℕ
deriving DecidableEq, Repr

namespace MonitorData

def new : MonitorData := ⟨0, 0, 0, 0, 0, 0, 0, 0, 0, Vector.replicate 16 0, 0, 0⟩

/-- `inc_alloc(size)`: `prev + size` is checked. -/
def incAlloc (m : MonitorData) (size : ℕ) : Option MonitorData := do
  let new ← Word.add m.currentAllocated size
  some { m with
    allocCount := fetchAdd m.allocCount 1
    currentAllocated := fetchAdd m.currentAllocated size
    peakAllocated := max m.peakAllocated new }

theorem incAlloc_of_lt {m : MonitorData} {size : ℕ} (h : m.currentAllocated + size < 2 ^ 64) :
    m.incAlloc size = some { m with
      allocCount := fetchAdd m.allocCount 1
      currentAllocated := m.currentAllocated + size
      peakAllocated := max m.peakAllocated (m.currentAllocated + size) } := by
  rw [incAlloc, Word.add_of_lt h, fetchAdd_of_lt h]
  rfl

def incFree (m : MonitorData) (size : ℕ) : MonitorData :=
  { m with
    freeCount := fetchAdd m.freeCount 1
    currentAllocated := fetchSub m.currentAllocated size }

def setFrameMetrics (m : MonitorData) (total : ℕ) : MonitorData := { m with totalFrames := total }

def incAllocatedFrames (m : MonitorData) (count : ℕ) : MonitorData :=
  { m with allocatedFrames := fetchAdd m.allocatedFrames count }

def decAllocatedFrames (m : MonitorData) (count : ℕ) : MonitorData :=
  { m with allocatedFrames := fetchSub m.allocatedFrames count }

def incTaskSpawned (m : MonitorData) : MonitorData :=
  { m with tasksSpawned := fetchAdd m.tasksSpawned 1, activeTasks := fetchAdd m.activeTasks 1 }

def incTaskCompleted (m : MonitorData) : MonitorData :=
  { m with tasksCompleted := fetchAdd m.tasksCompleted 1, activeTasks := fetchSub m.activeTasks 1 }

/-- `inc_interrupt(irq)`: vectors below 0x20 count as IRQ 0, those from 0x30 on not at all. -/
def incInterrupt (m : MonitorData) (irq : UInt8) : MonitorData :=
  let idx := irq.toNat - 0x20
  if h : idx < 16 then
    { m with interruptCounts := m.interruptCounts.set idx (fetchAdd m.interruptCounts[idx] 1) }
  else m

def incTimerTick (m : MonitorData) : MonitorData :=
  { m with timerTicks := fetchAdd m.timerTicks 1 }

def incDroppedWake (m : MonitorData) : MonitorData :=
  { m with droppedWakes := fetchAdd m.droppedWakes 1 }

end MonitorData

/-! ## Calls of several contexts -/

/-- Where a context is in a call. -/
inductive Call where
  /-- In no call. -/
  | idle
  /-- In `inc_alloc(size)`, before `current_allocated` is raised. -/
  | add (size : ℕ)
  /-- Before `peak_allocated` is loaded. -/
  | load (new : ℕ)
  /-- At the head of the loop. -/
  | loop (new peak : ℕ)
  /-- In `inc_free(size)`, before `current_allocated` is lowered. -/
  | sub (size : ℕ)
deriving DecidableEq, Repr

/-- What the next step of a call takes off the bytes in use. -/
def Call.freed : Call → Option ℕ
  | .sub size => some size
  | _ => none

/-- The counters, where each context is, and the largest value `current_allocated` has had. -/
structure Contexts (κ : Type) where
  data : MonitorData
  call : κ → Call
  high : ℕ

/-- What a context does next. -/
inductive Act where
  | incAlloc (size : ℕ)
  | incFree (size : ℕ)
  /-- One atomic operation; a weak compare-and-exchange may fail without a reason. -/
  | next (fails : Bool)
deriving DecidableEq, Repr

namespace Contexts

variable {κ : Type} [DecidableEq κ]

def start : Contexts κ := ⟨.new, fun _ => .idle, 0⟩

/-- A context moves on, and leaves the counters as they are now. -/
def goto (s : Contexts κ) (c : κ) (data : MonitorData) (call : Call) : Contexts κ :=
  ⟨data, Function.update s.call c call, max s.high data.currentAllocated⟩

/-- **One atomic step of one context**; `none` is a panic, or a step its call does not have. -/
def step (s : Contexts κ) : κ × Act → Option (Contexts κ)
  | (c, .incAlloc size) =>
    if s.call c = .idle then
      some (s.goto c { s.data with allocCount := fetchAdd s.data.allocCount 1 } (.add size))
    else none
  | (c, .incFree size) =>
    if s.call c = .idle then
      some (s.goto c { s.data with freeCount := fetchAdd s.data.freeCount 1 } (.sub size))
    else none
  | (c, .next fails) =>
    match s.call c with
    | .idle => none
    | .add size => do
      let new ← Word.add s.data.currentAllocated size
      some (s.goto c
        { s.data with currentAllocated := fetchAdd s.data.currentAllocated size } (.load new))
    | .load new => some (s.goto c s.data (.loop new s.data.peakAllocated))
    | .loop new peak =>
      if new > peak then
        if s.data.peakAllocated = peak ∧ fails = false then
          some (s.goto c { s.data with peakAllocated := new } .idle)
        else some (s.goto c s.data (.loop new s.data.peakAllocated))
      else some (s.goto c s.data .idle)
    | .sub size =>
      some (s.goto c
        { s.data with currentAllocated := fetchSub s.data.currentAllocated size } .idle)

/-- No more is freed than is in use. -/
def Allowed (s : Contexts κ) (i : κ × Act) : Prop :=
  ∀ size ∈ (s.call i.1).freed, size ≤ s.data.currentAllocated

instance (s : Contexts κ) (i : κ × Act) : Decidable (s.Allowed i) :=
  inferInstanceAs (Decidable (∀ size ∈ (s.call i.1).freed, _))

end Contexts

end YontiOs.Monitor
