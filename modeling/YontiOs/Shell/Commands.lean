import YontiOs.Fs.FileSystem
import YontiOs.Machinery.Layout
import YontiOs.Machinery.Text
import YontiOs.Machinery.Word
import YontiOs.Shell.Console
import YontiOs.Trace.Dump

/-!
# Shell/Commands — what a finished line does

`execute` of `shell.rs` and the handlers it calls.  A handler is given the part of the kernel it
reads, and returns what it does to the screen and to the log, in order; `none` is a panic.  Whether
the heap has room is for the heap to say: `Env.alloc` returns a pointer or null.
-/

namespace YontiOs

open Framebuffer Fs Text

/-- `monitor::snapshot()`. -/
structure MetricsSnapshot where
  allocCount : ℕ
  freeCount : ℕ
  currentAllocated : ℕ
  peakAllocated : ℕ
  allocatedFrames : ℕ
  totalFrames : ℕ
  tasksSpawned : ℕ
  tasksCompleted : ℕ
  activeTasks : ℕ
  interruptCounts : Vector ℕ 16
  timerTicks : ℕ
  droppedWakes : ℕ

/-- The kernel around the shell, when a line is executed. -/
structure Env where
  metrics : MetricsSnapshot
  trace : Trace.TraceBuffer
  fs : FileSystem
  /-- `alloc::alloc::alloc`, without its null pointer. -/
  alloc : Layout → Option ℕ

/-- What a handler does: it prints on the screen, clears it, or writes a line to the log. -/
inductive Effect
  | print (text : List UInt8)
  | printPrompt
  | clearScreen
  | log (line : String)

/-- `println!`. -/
def println (s : String) : Effect := .print (bytes s.toList ++ [0x0a])

/-- `{:?}` of an error. -/
def Fs.FsError.debug : FsError → String
  | notFound => "NotFound"
  | alreadyExists => "AlreadyExists"
  | notAFile => "NotAFile"
  | notADirectory => "NotADirectory"
  | invalidPath => "InvalidPath"
  | fileTooLarge => "FileTooLarge"
  | tooManyChildren => "TooManyChildren"
  | pathTooDeep => "PathTooDeep"
  | tooManyInodes => "TooManyInodes"
  | directoryNotEmpty => "DirectoryNotEmpty"

namespace Shell

def cmdHelp : List Effect :=
  [println ("commands: help, mem, trace [n], ls <path>, cat <path>, " ++
    "alloc <n>, uptime, clear, echo <text>")]

/-- The line of one interrupt, if it came at all; `0x20 + i as u8` must fit `u8`. -/
def irqLine (i count : ℕ) : Option (List Effect) :=
  if count > 0 then do
    let irq ← Word.byte (0x20 + i % 2 ^ 8)
    some [println s!"  irq 0x{Trace.hex 2 irq.toNat}: {count}"]
  else some []

def cmdMem (m : MetricsSnapshot) : Option (List Effect) := do
  let irqs ← m.interruptCounts.toList.zipIdx.mapM fun p => irqLine p.2 p.1
  some ([println (s!"alloc: {m.allocCount} allocs, {m.freeCount} frees, " ++
      s!"{m.currentAllocated} bytes in use (peak: {m.peakAllocated})"),
    println (s!"frames: {m.allocatedFrames}/{m.totalFrames}  " ++
      s!"tasks: spawned={m.tasksSpawned} completed={m.tasksCompleted} active={m.activeTasks}"),
    println s!"dropped wakes: {m.droppedWakes}  ticks: {m.timerTicks}"] ++ irqs.flatten)

def cmdTrace (trace : Trace.TraceBuffer) (nArg : Option String) : List Effect :=
  let n := (nArg.bind parseUsize).getD 10
  println s!"dumping last {n} trace events to serial..." :: (trace.dumpLast n).map .log

def cmdLs (fs : FileSystem) (path : Option String) : List Effect :=
  let path := path.getD "/"
  match fs.listDir path.toList with
  | .ok children =>
    println s!"{path} ({children.length} entries):" ::
      children.map fun name => println ("  " ++ String.ofList name)
  | .error .notADirectory =>
    match fs.readFile path.toList with
    | .ok data => [println s!"{path} (file, {data.length} bytes)"]
    | .error _ => [println s!"ls: {path}: not found"]
  | .error e => [println s!"ls: {path}: {e.debug}"]

def cmdCat (fs : FileSystem) (path : Option String) : List Effect :=
  match path with
  | none => [println "cat: missing path"]
  | some path =>
    match fs.readFile path.toList with
    | .ok data =>
      if (fromUtf8 data).isSome then [.print data]
      else [println s!"(binary file, {data.length} bytes)"]
    | .error .notAFile => [println s!"cat: {path}: is a directory"]
    | .error e => [println s!"cat: {path}: {e.debug}"]

def cmdAlloc (alloc : Layout → Option ℕ) (sizeArg : Option String) : Option (List Effect) :=
  match sizeArg.bind parseUsize with
  | none => some [println "alloc: invalid size"]
  | some size =>
    if size > 0 then do
      -- the `unwrap` of `Layout::from_size_align`
      let layout ← Layout.fromSizeAlign size 8
      match alloc layout with
      | none => some [println s!"alloc: allocation of {size} bytes failed"]
      | some ptr => some [println s!"alloc: {size} bytes at 0x{Trace.hex 16 ptr}"]
    else some [println "alloc: invalid size"]

def cmdUptime (m : MetricsSnapshot) : List Effect := [println s!"uptime: {m.timerTicks} ticks"]

def cmdClear : List Effect := [.clearScreen, .printPrompt]

def cmdEcho (text : String) : List Effect :=
  if text = "" then [.print [0x0a]] else [println text]

/-- The words of the line, which is empty if it is not UTF-8. -/
def words (sh : Shell) : List String := splitWhitespace (trim ((fromUtf8 sh.line).getD []))

/-- The `match` of `execute`, on the first word and those after it. -/
def dispatch (env : Env) (cmd : String) (parts : List String) : Option (List Effect) :=
  match cmd with
  | "help" => some cmdHelp
  | "mem" => cmdMem env.metrics
  | "trace" => some (cmdTrace env.trace parts.head?)
  | "ls" => some (cmdLs env.fs parts.head?)
  | "cat" => some (cmdCat env.fs parts.head?)
  | "alloc" => cmdAlloc env.alloc parts.head?
  | "uptime" => some (cmdUptime env.metrics)
  | "clear" => some cmdClear
  | "echo" => some (cmdEcho (" ".intercalate parts))
  | "" => some []
  | _ => some [println s!"unknown command: {cmd}"]

end Shell

namespace Console

/-- Carry out one effect; the log goes to the serial port. -/
def perform (s : Console) : Effect → Option Console
  | .print text => s.print text
  | .printPrompt => s.printPrompt
  | .clearScreen => some { s with screen := s.screen.clearScreen }
  | .log _ => some s

def execute (env : Env) (s : Console) : Option Console := do
  let words := s.shell.words
  let effects ← Shell.dispatch env (words.head?.getD "") words.tail
  let s ← effects.foldlM perform s
  -- `self.pos = 0`, with the bytes left in the buffer
  some { s with shell := { Shell.new with buf := s.shell.buf } }

/-- Keys, each with the kernel as it is then. -/
def handleEvents (s : Console) (events : List (Env × DecodedKey)) : Option Console :=
  events.foldlM (fun s e => s.handleKey (execute e.1) e.2) s

end Console

end YontiOs
