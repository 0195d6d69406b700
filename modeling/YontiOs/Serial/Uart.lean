import YontiOs.Machinery.Ports

/-!
# Serial/Uart — the serial port and its driver

`SerialPort` is the driver: it configures the port, and sends a byte when the transmitter is empty,
or when it has asked for that in vain 100 000 times.  `Uart16550` is the device: two of its
registers are others while the divisor is accessible, bytes wait in a queue of sixteen, and one
leaves whenever the device's own clock says so.

The driver never blocks, whatever device is behind its ports (`print_accesses`).  From whatever
state a 16550 is in, what leaves it after `init` is what was printed, in order, but for bytes that
are lost; and none is lost if one can leave in the time of 100 000 reads (`prints_in_order`).
-/

namespace YontiOs.Serial

open PortM

/-! ## The driver -/

def lineStsOutputEmpty : UInt8 := (1 : UInt8) <<< 5

structure SerialPort where
  data : ℕ
  intEn : ℕ
  fifoCtrl : ℕ
  lineCtrl : ℕ
  modemCtrl : ℕ
  lineSts : ℕ
deriving DecidableEq

namespace SerialPort

variable {σ : Type}

/-- `new(base)`: the sums are those of `u16`. -/
def new (base : UInt16) : Option SerialPort :=
  if base.toNat + 5 < 2 ^ 16 then
    some ⟨base.toNat, base.toNat + 1, base.toNat + 2, base.toNat + 3, base.toNat + 4,
      base.toNat + 5⟩
  else none

/-- `init()`. -/
def init (port : SerialPort) : PortM σ Unit := do
  write port.intEn 0x00
  write port.lineCtrl 0x80
  write port.data 0x03
  write port.intEn 0x00
  write port.lineCtrl 0x03
  write port.fifoCtrl 0xC7
  write port.modemCtrl 0x0B
  write port.intEn 0x01

/-- `wait_for!`, with the retries that are left. -/
def waitFor (port : SerialPort) : ℕ → PortM σ Unit
  | 0 => pure ()
  | retries + 1 => do
    let flags ← read port.lineSts
    if flags &&& lineStsOutputEmpty ≠ 0 then pure () else port.waitFor retries

def send (port : SerialPort) (byte : UInt8) : PortM σ Unit := do
  port.waitFor 100000
  write port.data byte

def writeStr (port : SerialPort) : List UInt8 → PortM σ Unit
  | [] => pure ()
  | byte :: bytes => do
    port.send byte
    port.writeStr bytes

/-- `_print(args)`: `write_fmt` writes the pieces of its arguments one by one. -/
def print (port : SerialPort) : List (List UInt8) → PortM σ Unit
  | [] => pure ()
  | piece :: pieces => do
    port.writeStr piece
    port.print pieces

/-! ## The driver never blocks -/

variable {bus : PortBus σ} {f : σ → ℕ}

/-- **Waiting ends**, after one access for each retry at the latest, whatever is read. -/
theorem waitFor_accesses (hf : bus.Counts f) (port : SerialPort) (n : ℕ) (s : σ) :
    ∃ s', port.waitFor n bus s = some ((), s') ∧ f s' ≤ f s + n := by
  induction n generalizing s with
  | zero => exact ⟨s, rfl, le_rfl⟩
  | succ n ih =>
    have hread := hf.read port.lineSts s
    rw [waitFor, read_bind]
    split_ifs
    · exact ⟨_, rfl, by omega⟩
    · obtain ⟨s', hrun, hle⟩ := ih (bus.read port.lineSts s).2
      exact ⟨s', hrun, by omega⟩

/-- **A byte takes 100 001 accesses** at the most. -/
theorem send_accesses (hf : bus.Counts f) (port : SerialPort) (byte : UInt8) (s : σ) :
    ∃ s', port.send byte bus s = some ((), s') ∧ f s' ≤ f s + 100001 := by
  obtain ⟨s₁, hrun, hle⟩ := waitFor_accesses hf port 100000 s
  refine ⟨bus.write port.data byte s₁, (bind_run hrun).trans write_run, ?_⟩
  have hwrite := hf.write port.data byte s₁
  omega

theorem writeStr_accesses (hf : bus.Counts f) (port : SerialPort) (bytes : List UInt8) (s : σ) :
    ∃ s', port.writeStr bytes bus s = some ((), s') ∧ f s' ≤ f s + 100001 * bytes.length := by
  induction bytes generalizing s with
  | nil => exact ⟨s, rfl, le_rfl⟩
  | cons byte bytes ih =>
    obtain ⟨s₁, hrun₁, hle₁⟩ := send_accesses hf port byte s
    obtain ⟨s₂, hrun₂, hle₂⟩ := ih s₁
    refine ⟨s₂, (bind_run hrun₁).trans hrun₂, ?_⟩
    rw [List.length_cons]
    omega

/-- **Printing returns**, with every device behind the ports. -/
theorem print_accesses (hf : bus.Counts f) (port : SerialPort) (pieces : List (List UInt8))
    (s : σ) : ∃ s', port.print pieces bus s = some ((), s') ∧
      f s' ≤ f s + 100001 * pieces.flatten.length := by
  induction pieces generalizing s with
  | nil => exact ⟨s, rfl, le_rfl⟩
  | cons piece pieces ih =>
    obtain ⟨s₁, hrun₁, hle₁⟩ := writeStr_accesses hf port piece s
    obtain ⟨s₂, hrun₂, hle₂⟩ := ih s₁
    refine ⟨s₂, (bind_run hrun₁).trans hrun₂, ?_⟩
    rw [List.flatten_cons, List.length_append]
    omega

end SerialPort

/-! ## The device -/

/-- Its registers, the bytes that wait, those that have left, and the time. -/
structure Uart16550 where
  lcr : UInt8
  ier : UInt8
  fcr : UInt8
  mcr : UInt8
  dll : UInt8
  dlm : UInt8
  fifo : List UInt8
  line : List UInt8
  time : ℕ

namespace Uart16550

/-- The divisor is accessible. -/
def Dlab (u : Uart16550) : Prop := u.lcr &&& 0x80 ≠ 0

instance (u : Uart16550) : Decidable u.Dlab := inferInstanceAs (Decidable (_ ≠ _))

/-- How many bytes can wait. -/
def room (u : Uart16550) : ℕ := if u.fcr &&& 0x01 ≠ 0 then 16 else 1

/-- Time goes on, and a byte leaves if the clock says so. -/
def tick (clock : ℕ → Bool) (u : Uart16550) : Uart16550 :=
  if clock u.time then
    { u with fifo := u.fifo.tail, line := u.line ++ u.fifo.head?.toList, time := u.time + 1 }
  else { u with time := u.time + 1 }

/-- The line status, of which the driver reads the bit for an empty transmitter. -/
def status (u : Uart16550) : UInt8 := if u.fifo = [] then 0x60 else 0

/-- A write to one of the registers from `base` on. -/
def store (base port : ℕ) (v : UInt8) (u : Uart16550) : Uart16550 :=
  if port = base then
    if u.Dlab then { u with dll := v }
    -- a byte that finds no room is lost
    else if u.fifo.length < u.room then { u with fifo := u.fifo ++ [v] }
    else u
  else if port = base + 1 then
    if u.Dlab then { u with dlm := v } else { u with ier := v }
  else if port = base + 2 then
    { u with fcr := v, fifo := if v &&& 0x04 ≠ 0 ∨ (v ^^^ u.fcr) &&& 0x01 ≠ 0 then [] else u.fifo }
  else if port = base + 3 then { u with lcr := v }
  else if port = base + 4 then { u with mcr := v }
  else u

def bus (base : ℕ) (clock : ℕ → Bool) : PortBus Uart16550 where
  read port u := (if port = base + 5 then u.status else 0, u.tick clock)
  write port v u := (u.store base port v).tick clock

/-- 38400 baud, eight bits, no parity, one stop bit; queues, interrupts and lines as `init` wants
them. -/
structure Configured (u : Uart16550) : Prop where
  lcr : u.lcr = 0x03
  ier : u.ier = 0x01
  fcr : u.fcr = 0xC7
  mcr : u.mcr = 0x0B
  dll : u.dll = 3
  dlm : u.dlm = 0

/-- What has left and what waits. -/
def sent (u : Uart16550) : List UInt8 := u.line ++ u.fifo

/-- A byte leaves within the time of 100 000 reads. -/
def Prompt (clock : ℕ → Bool) : Prop := ∀ t, ∃ i < 100000, clock (t + i) = true

variable {base : ℕ} {clock : ℕ → Bool} {u : Uart16550} {port : SerialPort}

/-! ## Time -/

@[simp] theorem sent_tick (u : Uart16550) : (u.tick clock).sent = u.sent := by
  rw [tick]
  split_ifs
  · cases hfifo : u.fifo with
    | nil => simp [sent, hfifo]
    | cons b l => simp [sent, hfifo]
  · rfl

theorem fifo_tick_of_nil (h : u.fifo = []) : (u.tick clock).fifo = [] := by
  rw [tick]
  split_ifs
  · exact congrArg List.tail h
  · exact h

theorem length_fifo_tick_le (u : Uart16550) : (u.tick clock).fifo.length ≤ u.fifo.length := by
  rw [tick]
  split_ifs
  · exact (List.length_tail (l := u.fifo)).le.trans (Nat.sub_le _ _)
  · exact le_rfl

theorem fifo_tick_of_clock (hclock : clock u.time = true) (hlen : u.fifo.length ≤ 1) :
    (u.tick clock).fifo = [] := by
  rw [tick, if_pos hclock]
  exact List.eq_nil_of_length_eq_zero (by rw [List.length_tail]; omega)

theorem time_tick (u : Uart16550) : (u.tick clock).time = u.time + 1 := by
  rw [tick]
  split_ifs <;> rfl

/-- A write to a register takes no time. -/
theorem time_store (base addr : ℕ) (v : UInt8) (u : Uart16550) :
    (u.store base addr v).time = u.time := by
  rw [store]
  split_ifs <;> rfl

/-- The time is the number of accesses. -/
theorem counts_time (base : ℕ) (clock : ℕ → Bool) : (bus base clock).Counts time where
  read _ u := (time_tick u).le
  write port v u := ((time_tick _).trans (congrArg (· + 1) (time_store base port v u))).le

/-- Time changes no register. -/
theorem registers_tick (clock : ℕ → Bool) (u : Uart16550) : (u.tick clock).lcr = u.lcr ∧
    (u.tick clock).ier = u.ier ∧ (u.tick clock).fcr = u.fcr ∧ (u.tick clock).mcr = u.mcr ∧
    (u.tick clock).dll = u.dll ∧ (u.tick clock).dlm = u.dlm := by
  rw [tick]
  split_ifs <;> exact ⟨rfl, rfl, rfl, rfl, rfl, rfl⟩

theorem Configured.tick (h : u.Configured) : (u.tick clock).Configured := by
  obtain ⟨hlcr, hier, hfcr, hmcr, hdll, hdlm⟩ := registers_tick clock u
  exact ⟨hlcr.trans h.lcr, hier.trans h.ier, hfcr.trans h.fcr, hmcr.trans h.mcr,
    hdll.trans h.dll, hdlm.trans h.dlm⟩

/-! ## Configuration -/

theorem store_intEn (base : ℕ) (v : UInt8) (u : Uart16550) : u.store base (base + 1) v =
    if u.Dlab then { u with dlm := v } else { u with ier := v } := by
  rw [store, if_neg (by omega), if_pos rfl]

theorem store_fifoCtrl (base : ℕ) (v : UInt8) (u : Uart16550) : u.store base (base + 2) v =
    { u with
      fcr := v
      fifo := if v &&& 0x04 ≠ 0 ∨ (v ^^^ u.fcr) &&& 0x01 ≠ 0 then [] else u.fifo } := by
  rw [store, if_neg (by omega), if_neg (by omega), if_pos rfl]

theorem store_lineCtrl (base : ℕ) (v : UInt8) (u : Uart16550) :
    u.store base (base + 3) v = { u with lcr := v } := by
  rw [store, if_neg (by omega), if_neg (by omega), if_neg (by omega), if_pos rfl]

theorem store_modemCtrl (base : ℕ) (v : UInt8) (u : Uart16550) :
    u.store base (base + 4) v = { u with mcr := v } := by
  rw [store, if_neg (by omega), if_neg (by omega), if_neg (by omega), if_neg (by omega), if_pos rfl]

/-- The registers after a write are those that it leaves. -/
theorem registers_of_store {addr : ℕ} {v : UInt8} {w : Uart16550} (clock : ℕ → Bool)
    (h : u.store base addr v = w) :
    ((u.store base addr v).tick clock).lcr = w.lcr ∧
      ((u.store base addr v).tick clock).ier = w.ier ∧
      ((u.store base addr v).tick clock).fcr = w.fcr ∧
      ((u.store base addr v).tick clock).mcr = w.mcr ∧
      ((u.store base addr v).tick clock).dll = w.dll ∧
      ((u.store base addr v).tick clock).dlm = w.dlm := by
  subst h
  exact registers_tick clock _

theorem dlab_tick : (u.tick clock).Dlab ↔ u.Dlab := by
  rw [Dlab, Dlab, (registers_tick clock u).1]

/-- The divisor is set while it is accessible. -/
theorem divisor_set (base : ℕ) (clock : ℕ → Bool) (u : Uart16550) :
    let u₁ := (u.store base (base + 3) 0x80).tick clock
    let u₂ := (u₁.store base base 0x03).tick clock
    let u₃ := (u₂.store base (base + 1) 0x00).tick clock
    u₃.dll = 3 ∧ u₃.dlm = 0 := by
  intro u₁ u₂ u₃
  have h₁ : u₁.Dlab := by
    rw [dlab_tick, store_lineCtrl]
    exact (by decide : (0x80 : UInt8) &&& 0x80 ≠ 0)
  have hstore₂ : u₁.store base base 0x03 = { u₁ with dll := 0x03 } := by
    rw [store, if_pos rfl, if_pos h₁]
  have h₂ : u₂.Dlab := by
    rw [dlab_tick, hstore₂]
    exact h₁
  obtain ⟨-, -, -, -, hdll₂, -⟩ := registers_of_store clock hstore₂
  have hstore₃ : u₂.store base (base + 1) 0x00 = { u₂ with dlm := 0x00 } := by
    rw [store_intEn, if_pos h₂]
  obtain ⟨-, -, -, -, hdll₃, hdlm₃⟩ := registers_of_store clock hstore₃
  exact ⟨hdll₃.trans hdll₂, hdlm₃⟩

/-- The other registers are set after that. -/
theorem others_set (base : ℕ) (clock : ℕ → Bool) (h : u.dll = 3 ∧ u.dlm = 0) :
    let u₁ := (u.store base (base + 3) 0x03).tick clock
    let u₂ := (u₁.store base (base + 2) 0xC7).tick clock
    let u₃ := (u₂.store base (base + 4) 0x0B).tick clock
    let u₄ := (u₃.store base (base + 1) 0x01).tick clock
    u₄.Configured ∧ u₄.fifo = [] := by
  intro u₁ u₂ u₃ u₄
  obtain ⟨hlcr₁, -, -, -, hdll₁, hdlm₁⟩ := registers_of_store clock (store_lineCtrl base 0x03 u)
  obtain ⟨hlcr₂, -, hfcr₂, -, hdll₂, hdlm₂⟩ :=
    registers_of_store clock (store_fifoCtrl base 0xC7 u₁)
  obtain ⟨hlcr₃, -, hfcr₃, hmcr₃, hdll₃, hdlm₃⟩ :=
    registers_of_store clock (store_modemCtrl base 0x0B u₂)
  have hlcr : u₃.lcr = 0x03 := hlcr₃.trans (hlcr₂.trans hlcr₁)
  have hstore₄ : u₃.store base (base + 1) 0x01 = { u₃ with ier := 0x01 } := by
    rw [store_intEn, if_neg (by rw [Dlab, hlcr]; decide)]
  obtain ⟨hlcr₄, hier₄, hfcr₄, hmcr₄, hdll₄, hdlm₄⟩ := registers_of_store clock hstore₄
  have hclear : (0xC7 : UInt8) &&& 0x04 ≠ 0 := by decide
  have hfifo₂ : u₂.fifo = [] := fifo_tick_of_nil (by
    rw [store_fifoCtrl]
    dsimp only
    rw [if_pos (Or.inl hclear)])
  have hfifo₃ : u₃.fifo = [] := fifo_tick_of_nil (by rw [store_modemCtrl]; exact hfifo₂)
  have hfifo₄ : u₄.fifo = [] := fifo_tick_of_nil (by rw [hstore₄]; exact hfifo₃)
  exact ⟨⟨hlcr₄.trans hlcr, hier₄, hfcr₄.trans (hfcr₃.trans hfcr₂), hmcr₄.trans hmcr₃,
    hdll₄.trans (hdll₃.trans (hdll₂.trans (hdll₁.trans h.1))),
    hdlm₄.trans (hdlm₃.trans (hdlm₂.trans (hdlm₁.trans h.2)))⟩, hfifo₄⟩

/-- **`init` configures the device** and empties its queue, whatever state it is in. -/
theorem init_run {base : UInt16} (clock : ℕ → Bool) (hnew : SerialPort.new base = some port)
    (u : Uart16550) :
    ∃ u', port.init (bus base.toNat clock) u = some ((), u') ∧ u'.Configured ∧ u'.fifo = [] := by
  rw [SerialPort.new] at hnew
  split_ifs at hnew
  obtain rfl := Option.some.inj hnew
  have hdivisor := divisor_set base.toNat clock
    ((u.store base.toNat (base.toNat + 1) 0x00).tick clock)
  refine ⟨_, ?_, others_set base.toNat clock hdivisor⟩
  rw [SerialPort.init, write_bind, write_bind, write_bind, write_bind, write_bind, write_bind,
    write_bind, write_run]
  rfl

/-! ## Sending -/

/-- What waiting does: nothing is lost, and the queue is empty in the end if a byte could leave. -/
structure Waited (clock : ℕ → Bool) (n : ℕ) (u u' : Uart16550) : Prop where
  sent : u'.sent = u.sent
  configured : u.Configured → u'.Configured
  length : u'.fifo.length ≤ u.fifo.length
  empty : (∃ i < n, clock (u.time + i) = true) → u.fifo.length ≤ 1 → u'.fifo = []

/-- **Waiting** for the device. -/
theorem waitFor_run (clock : ℕ → Bool) (hport : port.lineSts = base + 5) (n : ℕ)
    (u : Uart16550) :
    ∃ u', port.waitFor n (bus base clock) u = some ((), u') ∧ Waited clock n u u' := by
  induction n generalizing u with
  | zero =>
    exact ⟨u, rfl, rfl, fun h => h, le_rfl, fun ⟨i, hi, _⟩ => absurd hi i.not_lt_zero⟩
  | succ n ih =>
    have hread : (bus base clock).read port.lineSts u = (u.status, u.tick clock) := by
      rw [hport]
      exact congrArg (·, u.tick clock) (if_pos rfl)
    rw [SerialPort.waitFor, read_bind, hread]
    dsimp only
    by_cases hempty : u.fifo = []
    · -- the transmitter is empty
      rw [status, if_pos hempty, if_pos (by decide)]
      exact ⟨u.tick clock, rfl, sent_tick u, Configured.tick, length_fifo_tick_le u,
        fun _ _ => fifo_tick_of_nil hempty⟩
    · rw [status, if_neg hempty, if_neg (by decide)]
      obtain ⟨u', hrun, hwait⟩ := ih (u.tick clock)
      refine ⟨u', hrun, hwait.sent.trans (sent_tick u), fun h => hwait.configured h.tick,
        hwait.length.trans (length_fifo_tick_le u), fun ⟨i, hi, hclock⟩ hlen => ?_⟩
      cases i with
      | zero =>
        have hnil := fifo_tick_of_clock hclock hlen
        have hle := hwait.length
        rw [hnil] at hle
        exact List.eq_nil_of_length_eq_zero (Nat.le_zero.mp hle)
      | succ i =>
        refine hwait.empty ⟨i, Nat.lt_of_succ_lt_succ hi, ?_⟩ ((length_fifo_tick_le u).trans hlen)
        rw [time_tick, add_assoc, add_comm 1]
        exact hclock

/-- A byte written to the configured device waits, if there is room. -/
theorem store_data (base : ℕ) (h : u.Configured) (byte : UInt8) : u.store base base byte =
    if u.fifo.length < 16 then { u with fifo := u.fifo ++ [byte] } else u := by
  have hdlab : ¬ u.Dlab := by
    rw [Dlab, h.lcr]
    decide
  have hroom : u.room = 16 := by
    rw [room, h.fcr]
    decide
  rw [store, if_pos rfl, if_neg hdlab, hroom]

/-- The write of a byte leaves the configuration as it was. -/
theorem Configured.store_data (h : u.Configured) (base : ℕ) (byte : UInt8) :
    (u.store base base byte).Configured := by
  rw [Uart16550.store_data base h]
  split_ifs
  · exact ⟨h.lcr, h.ier, h.fcr, h.mcr, h.dll, h.dlm⟩
  · exact h

/-- What sending does to the bytes `kept` of those given to it: they are in the queue or have left,
and if bytes leave promptly they are all of them. -/
structure Sends (clock : ℕ → Bool) (bytes : List UInt8) (u u' : Uart16550) (kept : List UInt8) :
    Prop where
  configured : u'.Configured
  sent : u'.sent = u.sent ++ kept
  sublist : kept.Sublist bytes
  prompt : Prompt clock → u.fifo.length ≤ 1 → kept = bytes ∧ u'.fifo.length ≤ 1

theorem Sends.nil (h : u.Configured) : Sends clock [] u u [] where
  configured := h
  sent := (List.append_nil _).symm
  sublist := List.Sublist.refl _
  prompt _ hlen := ⟨rfl, hlen⟩

theorem Sends.append {u₁ u₂ : Uart16550} {bytes₁ bytes₂ kept₁ kept₂ : List UInt8}
    (h₁ : Sends clock bytes₁ u u₁ kept₁) (h₂ : Sends clock bytes₂ u₁ u₂ kept₂) :
    Sends clock (bytes₁ ++ bytes₂) u u₂ (kept₁ ++ kept₂) where
  configured := h₂.configured
  sent := by rw [h₂.sent, h₁.sent, List.append_assoc]
  sublist := h₁.sublist.append h₂.sublist
  prompt hprompt hlen := by
    obtain ⟨hkept₁, hlen₁⟩ := h₁.prompt hprompt hlen
    obtain ⟨hkept₂, hlen₂⟩ := h₂.prompt hprompt hlen₁
    exact ⟨by rw [hkept₁, hkept₂], hlen₂⟩

/-- The ports of the driver that sending uses are those of the device. -/
def Wired (port : SerialPort) (base : ℕ) : Prop := port.data = base ∧ port.lineSts = base + 5

theorem wired_new {base : UInt16} (hnew : SerialPort.new base = some port) :
    Wired port base.toNat := by
  rw [SerialPort.new] at hnew
  split_ifs at hnew
  obtain rfl := Option.some.inj hnew
  exact ⟨rfl, rfl⟩

/-- **One byte is sent.** -/
theorem send_run (clock : ℕ → Bool) (hport : Wired port base) (h : u.Configured)
    (byte : UInt8) : ∃ u' kept, port.send byte (bus base clock) u = some ((), u') ∧
      Sends clock [byte] u u' kept := by
  obtain ⟨w, hrun, hwait⟩ := waitFor_run clock hport.2 100000 u
  have hconf := hwait.configured h
  have hsend : port.send byte (bus base clock) u =
      some ((), (w.store base base byte).tick clock) := by
    rw [SerialPort.send, bind_run hrun, write_run, hport.1]
    rfl
  have hconf' := hconf.store_data base byte
  have hstore := store_data base hconf byte
  by_cases hroom : w.fifo.length < 16
  · rw [if_pos hroom] at hstore
    refine ⟨_, [byte], hsend, hconf'.tick, ?_, List.Sublist.refl _,
      fun hprompt hlen => ⟨rfl, ?_⟩⟩
    · rw [sent_tick, hstore, ← hwait.sent, sent, sent, List.append_assoc]
    · have hnil := hwait.empty (hprompt u.time) hlen
      refine (length_fifo_tick_le _).trans ?_
      rw [hstore, hnil]
      exact le_rfl
  · rw [if_neg hroom] at hstore
    refine ⟨_, [], hsend, hconf'.tick, ?_, List.nil_sublist _, fun hprompt hlen => ?_⟩
    · rw [sent_tick, hstore, hwait.sent, List.append_nil]
    · rw [hwait.empty (hprompt u.time) hlen] at hroom
      exact absurd (Nat.succ_pos 15) hroom

theorem writeStr_run (clock : ℕ → Bool) (hport : Wired port base) (h : u.Configured)
    (bytes : List UInt8) : ∃ u' kept, port.writeStr bytes (bus base clock) u = some ((), u') ∧
      Sends clock bytes u u' kept := by
  induction bytes generalizing u with
  | nil => exact ⟨u, [], rfl, .nil h⟩
  | cons byte bytes ih =>
    obtain ⟨u₁, kept₁, hrun₁, hsends₁⟩ := send_run clock hport h byte
    obtain ⟨u₂, kept₂, hrun₂, hsends₂⟩ := ih hsends₁.configured
    exact ⟨u₂, kept₁ ++ kept₂, (bind_run hrun₁).trans hrun₂, hsends₁.append hsends₂⟩

theorem print_run (clock : ℕ → Bool) (hport : Wired port base) (h : u.Configured)
    (pieces : List (List UInt8)) : ∃ u' kept,
    port.print pieces (bus base clock) u = some ((), u') ∧
      Sends clock pieces.flatten u u' kept := by
  induction pieces generalizing u with
  | nil => exact ⟨u, [], rfl, .nil h⟩
  | cons piece pieces ih =>
    obtain ⟨u₁, kept₁, hrun₁, hsends₁⟩ := writeStr_run clock hport h piece
    obtain ⟨u₂, kept₂, hrun₂, hsends₂⟩ := ih hsends₁.configured
    exact ⟨u₂, kept₁ ++ kept₂, (bind_run hrun₁).trans hrun₂, hsends₁.append hsends₂⟩

/-- **What is printed leaves the port in order.**  From any state of the device, `init` configures
it and printing returns after 100 001 accesses for each byte at the latest; what waits and what has
left since is a part of what was printed, in its order, and all of it if bytes leave promptly. -/
theorem prints_in_order {base : UInt16} (hnew : SerialPort.new base = some port)
    (clock : ℕ → Bool) (u : Uart16550) (pieces : List (List UInt8)) :
    ∃ u₁ u₂ kept, port.init (bus base.toNat clock) u = some ((), u₁) ∧
      port.print pieces (bus base.toNat clock) u₁ = some ((), u₂) ∧
      u₂.Configured ∧ u₂.time ≤ u₁.time + 100001 * pieces.flatten.length ∧
      u₂.line ++ u₂.fifo = u₁.line ++ kept ∧ kept.Sublist pieces.flatten ∧
      (Prompt clock → kept = pieces.flatten) := by
  obtain ⟨u₁, hinit, hconf, hnil⟩ := init_run clock hnew u
  obtain ⟨u₂, kept, hprint, hsends⟩ := print_run clock (wired_new hnew) hconf pieces
  obtain ⟨u₃, hprint', htime⟩ :=
    SerialPort.print_accesses (counts_time base.toNat clock) port pieces u₁
  obtain rfl : u₂ = u₃ := congrArg Prod.snd (Option.some.inj (hprint.symm.trans hprint'))
  refine ⟨u₁, u₂, kept, hinit, hprint, hsends.configured, htime, ?_, hsends.sublist,
    fun hprompt => ?_⟩
  · have hsent := hsends.sent
    rwa [sent, sent, hnil, List.append_nil] at hsent
  · exact (hsends.prompt hprompt (by rw [hnil]; exact Nat.zero_le 1)).1

/-- A device in the middle of an access to its divisor, with its queue full. -/
def leftOver : Uart16550 := ⟨0x83, 0, 0x01, 0, 1, 0, List.replicate 16 0x2E, [], 0⟩

/-- It prints at the first serial port of a PC, where a byte leaves every second time. -/
theorem prints_in_order_leftOver : ∃ port u₁ u₂, SerialPort.new 0x3F8 = some port ∧
    port.init (bus 0x3F8 fun t => t % 2 == 0) leftOver = some ((), u₁) ∧
    port.print [[0x68, 0x65], [0x6C, 0x6C, 0x6F]] (bus 0x3F8 fun t => t % 2 == 0) u₁ =
      some ((), u₂) ∧
    u₂.line ++ u₂.fifo = u₁.line ++ [0x68, 0x65, 0x6C, 0x6C, 0x6F] := by
  have hnew : SerialPort.new 0x3F8 = some ⟨0x3F8, 0x3F9, 0x3FA, 0x3FB, 0x3FC, 0x3FD⟩ := rfl
  obtain ⟨u₁, u₂, kept, hinit, hprint, -, -, hsent, -, hkept⟩ :=
    prints_in_order hnew (fun t => t % 2 == 0) leftOver [[0x68, 0x65], [0x6C, 0x6C, 0x6F]]
  have hprompt : Prompt fun t => t % 2 == 0 := fun t =>
    ⟨t % 2, by omega, by simp only [beq_iff_eq]; omega⟩
  rw [hkept hprompt] at hsent
  exact ⟨_, u₁, u₂, hnew, hinit, hprint, hsent⟩

end Uart16550

end YontiOs.Serial
