import YontiOs.Machinery.Ring

/-!
# Trace/Dump — the trace ring and its dump

`record` writes around a ring of 4096 entries and counts without end; `dump_last` takes its range
from the count and its entries from the ring.  While the range is no longer than the ring the dump
is the end of the history; a longer range goes around the ring more than once (`dumpLast_eq_iff`).
-/

namespace YontiOs.Trace

/-- `BUFFER_SIZE`. -/
def bufferSize : ℕ := 4096

inductive TraceEventId
  | alloc
  | free
  | taskSpawn
  | taskComplete
  | interrupt
  | pageFault
deriving DecidableEq, Repr

/-- `id as u16`. -/
def TraceEventId.code : TraceEventId → ℕ
  | alloc => 1
  | free => 2
  | taskSpawn => 10
  | taskComplete => 11
  | interrupt => 20
  | pageFault => 30

structure TraceEntry where
  timestamp : ℕ
  eventId : ℕ
  arg0 : ℕ
  arg1 : ℕ
deriving DecidableEq, Repr

/-- The static `TRACE`. -/
structure TraceBuffer where
  entries : ℕ → TraceEntry
  writeIdx : ℕ
  overflowCount : ℕ
  initialized : Bool

/-- A call of `record`, with the time stamp counter it reads. -/
structure Call where
  id : TraceEventId
  arg0 : ℕ
  arg1 : ℕ
  tsc : ℕ
deriving DecidableEq, Repr

/-- The entry a call makes. -/
def Call.entry (e : Call) : TraceEntry := ⟨e.tsc, e.id.code, e.arg0, e.arg1⟩

namespace TraceBuffer

def new : TraceBuffer := ⟨fun _ => ⟨0, 0, 0, 0⟩, 0, 0, false⟩

/-- `init()`. -/
def init (t : TraceBuffer) : TraceBuffer := { t with initialized := true }

/-- `record(id, arg0, arg1)`: nothing before `init`, and both counters wrap. -/
def record (t : TraceBuffer) (e : Call) : TraceBuffer :=
  if t.initialized then
    let idx := t.writeIdx % bufferSize
    { t with
      writeIdx := (t.writeIdx + 1) % 2 ^ 64
      overflowCount := if idx = 0 then (t.overflowCount + 1) % 2 ^ 64 else t.overflowCount
      entries := Function.update t.entries idx e.entry }
  else t

end TraceBuffer

/-- The name `dump_last` prints for an event id. -/
def eventName : ℕ → String
  | 1 => "ALLOC"
  | 2 => "FREE"
  | 10 => "TASK_SPAWN"
  | 11 => "TASK_COMPLETE"
  | 20 => "IRQ"
  | 30 => "PAGE_FAULT"
  | _ => "UNKNOWN"

/-- `{:x}`, padded with zeros to `width` digits. -/
def hex (width n : ℕ) : String :=
  let digits := Nat.toDigits 16 n
  String.ofList (List.replicate (width - digits.length) '0' ++ digits)

/-- The line of an entry. -/
def TraceEntry.line (e : TraceEntry) : String :=
  s!"  [{hex 16 e.timestamp}] {eventName e.eventId} arg0=0x{hex 1 e.arg0} arg1=0x{hex 1 e.arg1}"

/-- The first line of a dump. -/
def headline (total overflow n : ℕ) : String :=
  s!"trace events: total={total} overflow={overflow} (showing last {n})"

namespace TraceBuffer

/-- The entries the loop of `dump_last(n)` visits. -/
def visited (t : TraceBuffer) (n : ℕ) : List TraceEntry :=
  let start := t.writeIdx - n
  (List.range' start (t.writeIdx - start)).map fun i => t.entries (i % bufferSize)

/-- `dump_last(n)`: the lines it logs. -/
def dumpLast (t : TraceBuffer) (n : ℕ) : List String :=
  headline t.writeIdx t.overflowCount n :: (t.visited n).map TraceEntry.line

/-! ## What the ring holds -/

variable {t : TraceBuffer} {es early : List Call} {e : Call} {n j : ℕ} {l : List TraceEntry}

/-- Before `init` nothing is recorded. -/
theorem foldl_record_of_not_initialized (h : t.initialized = false) : es.foldl record t = t := by
  induction es with
  | nil => rfl
  | cons e es ih => rw [List.foldl_cons, record, h, if_neg Bool.false_ne_true, ih]

/-- The ring has the end of `l`, and the counters count it. -/
structure Records (t : TraceBuffer) (l : List TraceEntry) : Prop where
  initialized : t.initialized = true
  ring : Ring bufferSize t.entries l
  writeIdx : t.writeIdx = l.length
  overflowCount : t.overflowCount = (l.length + 4095) / 4096

theorem records_init : Records new.init [] := ⟨rfl, .nil, rfl, rfl⟩

theorem Records.record (h : Records t l) (hlen : l.length + 1 < 2 ^ 64) :
    Records (t.record e) (l ++ [e.entry]) := by
  rw [TraceBuffer.record, if_pos h.initialized]
  refine ⟨h.initialized, ?_, ?_, ?_⟩
  · simp only [h.writeIdx]
    exact h.ring.push
  · simp only [h.writeIdx, List.length_append, List.length_singleton, Nat.mod_eq_of_lt hlen]
  · simp only [h.writeIdx, h.overflowCount, List.length_append, List.length_singleton, bufferSize]
    split_ifs <;> omega

/-- **After any number of records** below `2 ^ 64`. -/
theorem Records.foldl_record (h : Records t l) (hlen : l.length + es.length < 2 ^ 64) :
    Records (es.foldl TraceBuffer.record t) (l ++ es.map Call.entry) := by
  induction es generalizing t l with
  | nil => simpa using h
  | cons e es ih =>
    rw [List.length_cons] at hlen
    have := ih (h.record (e := e) (by omega)) (by simp; omega)
    simpa using this

/-! ## The dump -/

theorem Records.visited_eq (h : Records t l) : t.visited n =
    (List.range' (l.length - min n l.length) (min n l.length)).map
      fun i => t.entries (i % bufferSize) := by
  simp only [visited, h.writeIdx]
  congr 2 <;> omega

theorem Records.length_visited (h : Records t l) : (t.visited n).length = min n l.length := by
  rw [h.visited_eq, List.length_map, List.length_range']

/-- **The last entries visited**, one turn of the ring at most, are the end of the history. -/
theorem Records.visited_drop {m : ℕ} (h : Records t l) (hm : m ≤ 4096) (hle : m ≤ min n l.length) :
    (t.visited n).drop (min n l.length - m) = l.drop (l.length - m) := by
  rw [h.visited_eq, ← List.map_drop, List.drop_range', mul_one,
    show l.length - min n l.length + (min n l.length - m) = l.length - m by omega,
    show min n l.length - (min n l.length - m) = m by omega]
  exact h.ring.map_range' hm (by omega)

/-- A longer range shows the same entries again after each turn. -/
theorem Records.visited_turn (h : Records t l) (hj : j + 4096 < min n l.length) :
    (t.visited n)[j]? = (t.visited n)[j + 4096]? := by
  have hget : ∀ i, i < min n l.length → (t.visited n)[i]? =
      some (t.entries ((l.length - min n l.length + i) % bufferSize)) := by
    intro i hi
    rw [h.visited_eq, List.getElem?_map, List.getElem?_range' hi, one_mul, Option.map_some]
  rw [hget j (by omega), hget (j + 4096) hj, ← Nat.add_assoc, bufferSize, Nat.add_mod_right]

/-- The state of the trace after any calls before `init`, `init`, and the calls `es`. -/
def after (early es : List Call) : TraceBuffer := es.foldl record (early.foldl record new).init

theorem records_after (early es : List Call) (hlen : es.length < 2 ^ 64) :
    Records (after early es) (es.map Call.entry) := by
  have hearly : early.foldl record new = new := foldl_record_of_not_initialized rfl
  rw [after, hearly, ← List.nil_append (es.map Call.entry)]
  exact records_init.foldl_record (by simpa using hlen)

/-- **The dump shows history, up to one turn of the ring**: after fewer than `2 ^ 64` records,
`dump_last(n)` logs the last `min(n, total, 4096)` of them, oldest first and each once, exactly if
`n` or the total is at most 4096.  In any case it logs `min(n, total)` lines, of which the last 4096
are right and every earlier one is the line 4096 further on. -/
theorem dumpLast_eq_iff (early es : List Call) (n : ℕ) (hlen : es.length < 2 ^ 64) :
    let history := es.map Call.entry
    let dump := (after early es).dumpLast n
    (dump = headline es.length ((es.length + 4095) / 4096) n ::
        (history.drop (es.length - min (min n es.length) 4096)).map TraceEntry.line ↔
      min n es.length ≤ 4096) ∧
    dump.length = min n es.length + 1 ∧
    dump.drop (dump.length - min (min n es.length) 4096) =
      (history.drop (es.length - min (min n es.length) 4096)).map TraceEntry.line ∧
    ∀ j, 0 < j → j + 4096 < dump.length → dump[j]? = dump[j + 4096]? := by
  intro history dump
  have hrec : Records (after early es) history := records_after early es hlen
  have hhist : history.length = es.length := List.length_map _
  have hdump : dump = headline es.length ((es.length + 4095) / 4096) n ::
      ((after early es).visited n).map TraceEntry.line := by
    simp only [dump, dumpLast, hrec.writeIdx, hrec.overflowCount, hhist]
  have hlen' : dump.length = min n es.length + 1 := by
    rw [hdump, List.length_cons, List.length_map, hrec.length_visited, hhist]
  refine ⟨⟨fun heq => ?_, fun hle => ?_⟩, hlen', ?_, fun j hj hlt => ?_⟩
  · -- the two sides have different lengths
    have := congrArg List.length heq
    rw [hlen', List.length_cons, List.length_map, List.length_drop, hhist] at this
    omega
  · have hall := hrec.visited_drop (n := n) hle (by rw [hhist])
    rw [hhist, Nat.sub_self, List.drop_zero] at hall
    rw [hdump, hall, min_eq_left hle]
  · have hlast := hrec.visited_drop (n := n) (min_le_right (min n es.length) 4096)
      (by rw [hhist]; exact min_le_left _ _)
    rw [hlen', hdump, show min n es.length + 1 - min (min n es.length) 4096
      = min n es.length - min (min n es.length) 4096 + 1 by omega, List.drop_succ_cons,
      ← List.map_drop]
    rw [hhist] at hlast
    rw [hlast]
  · -- the headline is line 0
    obtain ⟨i, rfl⟩ := Nat.exists_eq_succ_of_ne_zero hj.ne'
    have hturn := hrec.visited_turn (n := n) (j := i) (by rw [hhist]; omega)
    rw [hdump, Nat.succ_add, List.getElem?_cons_succ, List.getElem?_cons_succ, List.getElem?_map,
      List.getElem?_map, hturn]

/-- Two records and a dump of ten lines show both. -/
theorem dumpLast_eq_iff_two :
    (after [] [⟨.alloc, 64, 8, 1⟩, ⟨.free, 64, 0, 2⟩]).dumpLast 10 =
      ["trace events: total=2 overflow=1 (showing last 10)",
        "  [0000000000000001] ALLOC arg0=0x40 arg1=0x8",
        "  [0000000000000002] FREE arg0=0x40 arg1=0x0"] :=
  ((dumpLast_eq_iff [] _ 10 (by decide)).1.mpr (by decide)).trans (by decide +kernel)

/-- One record more than the ring holds: a dump of all of them begins and ends with the last. -/
theorem visited_of_length_eq (early es : List Call) (e : Call) (hlen : es.length = 4096) :
    ((after early (es ++ [e])).visited 4097).length = 4097 ∧
      ((after early (es ++ [e])).visited 4097)[0]? = some e.entry ∧
      ((after early (es ++ [e])).visited 4097)[4096]? = some e.entry := by
  have hlen' : (es ++ [e]).length = 4097 := by rw [List.length_append, hlen, List.length_singleton]
  have hrec := records_after early (es ++ [e]) (by rw [hlen']; decide)
  have hhist : ((es ++ [e]).map Call.entry).length = 4097 := by rw [List.length_map, hlen']
  have hlast : ((after early (es ++ [e])).visited 4097)[4096]? = some e.entry := by
    have hdrop := hrec.visited_drop (n := 4097) (m := 1) (by decide) (by rw [hhist]; decide)
    rw [hhist, List.map_append, List.map_singleton, List.drop_left' (by rw [List.length_map, hlen])]
      at hdrop
    have hget := congrArg (·[0]?) hdrop
    rwa [List.getElem?_drop] at hget
  have hturn := hrec.visited_turn (n := 4097) (j := 0) (by rw [hhist]; decide)
  exact ⟨by rw [hrec.length_visited, hhist]; rfl, hturn.trans hlast, hlast⟩

/-- **A dump that repeats itself**: of 4097 records the first was overwritten by the last, and a
dump of all of them shows the last one in its place, and again at the end. -/
theorem dumpLast_repeats :
    let es := List.replicate 4096 ⟨.alloc, 64, 8, 1⟩ ++ [⟨.pageFault, 0, 0, 2⟩]
    let dump := (after [] es).dumpLast 4097
    dump.length = 4098 ∧ dump[1]? = some "  [0000000000000002] PAGE_FAULT arg0=0x0 arg1=0x0" ∧
      dump[4097]? = some "  [0000000000000002] PAGE_FAULT arg0=0x0 arg1=0x0" := by
  intro es dump
  have hline : TraceEntry.line ⟨2, 30, 0, 0⟩ =
    "  [0000000000000002] PAGE_FAULT arg0=0x0 arg1=0x0" := by decide +kernel
  obtain ⟨hlen, hfirst, hlast⟩ := visited_of_length_eq [] _ ⟨.pageFault, 0, 0, 2⟩
    (List.length_replicate (n := 4096) (a := ⟨.alloc, 64, 8, 1⟩))
  refine ⟨?_, ?_, ?_⟩
  · rw [show dump.length = _ from List.length_cons, List.length_map, hlen]
  · rw [show dump[1]? = _ from List.getElem?_cons_succ, List.getElem?_map, hfirst, ← hline]
    rfl
  · rw [show dump[4097]? = _ from List.getElem?_cons_succ, List.getElem?_map, hlast, ← hline]
    rfl

end TraceBuffer

end YontiOs.Trace
