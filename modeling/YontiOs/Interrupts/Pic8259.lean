import YontiOs.Interrupts.Chips

/-!
# Interrupts/Pic8259 — controllers that do what is documented

A controller takes its configuration in a sequence of words, and in service it keeps a set of
requests and a set of interrupts being handled, which block those of lower priority until they are
ended.  Two of them, the second behind line 2 of the first, are a `PicPair` that does all that is
documented (`pics8259_documented`), so nothing is asked of the controllers that none could do.
-/

namespace YontiOs.Interrupts

/-! ## One controller -/

/-- What a write to the data port is taken for. -/
inductive Phase
  | ready
  | icw2
  | icw3
  | icw4
deriving DecidableEq, Repr

/-- One controller: its configuration, its mask, the lines that request an interrupt and those whose
interrupt is being handled. -/
structure Pic8259 where
  phase : Phase
  single : Bool
  needsIcw4 : Bool
  base : UInt8
  cascade : UInt8
  mode : UInt8
  imr : UInt8
  irr : Finset (Fin 8)
  isr : Finset (Fin 8)
deriving DecidableEq

namespace Pic8259

/-- The line of highest priority. -/
def highest (lines : Finset (Fin 8)) : Option (Fin 8) := Fin.find? fun n => decide (n ∈ lines)

/-- A write to the command port: the start of a configuration, or the end of an interrupt. -/
def writeCommand (p : Pic8259) (v : UInt8) : Pic8259 :=
  if v &&& 0x10 ≠ 0 then
    { p with
      phase := .icw2
      single := decide (v &&& 0x02 ≠ 0)
      needsIcw4 := decide (v &&& 0x01 ≠ 0)
      mode := 0
      imr := 0
      irr := ∅ }
  -- what a read of the command port gives
  else if v &&& 0x08 ≠ 0 then p
  else if v &&& 0xE0 = 0x20 then
    match highest p.isr with
    | some n => { p with isr := p.isr.erase n }
    | none => p
  -- rotating priorities, which the driver does not use
  else p

/-- A write to the data port. -/
def writeData (p : Pic8259) (v : UInt8) : Pic8259 :=
  match p.phase with
  | .ready => { p with imr := v }
  | .icw2 =>
    { p with
      base := v &&& 0xF8
      phase := if p.single then (if p.needsIcw4 then .icw4 else .ready) else .icw3 }
  | .icw3 => { p with cascade := v, phase := if p.needsIcw4 then .icw4 else .ready }
  | .icw4 => { p with mode := v, phase := .ready }

def masked (p : Pic8259) (n : Fin 8) : Bool := p.imr.toBitVec.getLsbD n

/-- The line whose interrupt is signalled: one that is not masked, and of higher priority than all
that are being handled. -/
def signalled (p : Pic8259) (lines : Finset (Fin 8)) : Option (Fin 8) :=
  if p.phase = .ready then
    Fin.find? fun n => decide (n ∈ lines) && !p.masked n && decide (∀ m ∈ p.isr, n < m)
  else none

/-- The interrupt of a line is taken up. -/
def serve (p : Pic8259) (n : Fin 8) : Pic8259 :=
  { p with irr := p.irr.erase n, isr := insert n p.isr }

/-- The controller is configured. -/
structure Ready (p : Pic8259) (offset cascade : UInt8) : Prop where
  phase : p.phase = .ready
  base : p.base = offset
  cascade : p.cascade = cascade

end Pic8259

/-! ## Two controllers -/

/-- The two controllers; the second signals to line 2 of the first. -/
structure Pics8259 where
  master : Pic8259
  slave : Pic8259
deriving DecidableEq

namespace Pics8259

def side (s : Pics8259) : Side → Pic8259
  | .master => s.master
  | .slave => s.slave

/-- One of the two changes. -/
def set (s : Pics8259) (side : Side) (p : Pic8259) : Pics8259 :=
  match side with
  | .master => { s with master := p }
  | .slave => { s with slave := p }

def bus : PortBus Pics8259 where
  read port s :=
    (if port = 0x21 then s.master.imr else if port = 0xA1 then s.slave.imr else 0, s)
  write port v s :=
    if port = 0x20 then { s with master := s.master.writeCommand v }
    else if port = 0x21 then { s with master := s.master.writeData v }
    else if port = 0xA0 then { s with slave := s.slave.writeCommand v }
    else if port = 0xA1 then { s with slave := s.slave.writeData v }
    else s

/-- The lines of the first controller that request an interrupt. -/
def lines (s : Pics8259) : Finset (Fin 8) :=
  if (s.slave.signalled s.slave.irr).isSome then insert 2 s.master.irr else s.master.irr.erase 2

/-- The line of a device goes up. -/
def raise (irq : Fin 16) (s : Pics8259) : Pics8259 :=
  if irq.val < 8 then { s with master.irr := insert (masterLine irq) s.master.irr }
  else { s with slave.irr := insert (slaveLine irq) s.slave.irr }

/-- The line of a device goes down. -/
def lower (irq : Fin 16) (s : Pics8259) : Pics8259 :=
  if irq.val < 8 then { s with master.irr := s.master.irr.erase (masterLine irq) }
  else { s with slave.irr := s.slave.irr.erase (slaveLine irq) }

/-- The processor acknowledges an interrupt, and gets its vector. -/
def acknowledge (s : Pics8259) : UInt8 × Pics8259 :=
  match s.master.signalled s.lines with
  | none => (s.master.base + 7, s)
  | some n =>
    if s.master.cascade.toBitVec.getLsbD n ∧ s.slave.cascade.toNat = n then
      match s.slave.signalled s.slave.irr with
      | none => (s.slave.base + 7, { s with master := s.master.serve n })
      | some m => (s.slave.base + UInt8.ofNat m, ⟨s.master.serve n, s.slave.serve m⟩)
    else (s.master.base + UInt8.ofNat n, { s with master := s.master.serve n })

/-- The IRQs that request an interrupt. -/
def irr (s : Pics8259) : Finset (Fin 16) :=
  Finset.univ.filter fun irq =>
    if irq.val < 8 then masterLine irq ∈ s.master.irr else slaveLine irq ∈ s.slave.irr

end Pics8259

/-- Two 8259s. -/
def pics8259 : PicPair Pics8259 where
  bus := Pics8259.bus
  raise := Pics8259.raise
  lower := Pics8259.lower
  int s := (s.master.signalled s.lines).isSome
  inta := Pics8259.acknowledge
  imr side s := (s.side side).imr
  isr side s := (s.side side).isr
  irr := Pics8259.irr
  Ready o₁ o₂ s := s.master.Ready o₁ 4 ∧ s.slave.Ready o₂ 2

/-! ## Which interrupt is signalled -/

variable {p : Pic8259} {s : Pics8259} {o₁ o₂ v : UInt8} {n : Fin 8} {irq : Fin 16}

namespace Pic8259

theorem highest_eq_some {l : Finset (Fin 8)} :
    highest l = some n ↔ n ∈ l ∧ ∀ m ∈ l, n ≤ m := by
  rw [highest, Fin.find?_eq_some_iff, decide_eq_true_eq]
  refine and_congr_right fun _ => ⟨fun h m hm => ?_, fun h m hm => ?_⟩
  · by_contra hlt
    exact absurd hm (of_decide_eq_false (h m (not_le.mp hlt)))
  · exact decide_eq_false fun hmem => absurd (h m hmem) (not_le.mpr hm)

/-- A line asks for an interrupt that may be signalled. -/
structure Asks (p : Pic8259) (l : Finset (Fin 8)) (n : Fin 8) : Prop where
  mem : n ∈ l
  unmasked : p.masked n = false
  above : ∀ m ∈ p.isr, n < m

theorem asks_iff {l : Finset (Fin 8)} :
    (decide (n ∈ l) && !p.masked n && decide (∀ k ∈ p.isr, n < k)) = true ↔ p.Asks l n := by
  simp only [Bool.and_eq_true, decide_eq_true_eq, Bool.not_eq_true']
  exact ⟨fun ⟨⟨h1, h2⟩, h3⟩ => ⟨h1, h2, h3⟩, fun h => ⟨⟨h.mem, h.unmasked⟩, h.above⟩⟩

theorem signalled_eq_some (hready : p.phase = .ready) {l : Finset (Fin 8)}
    (h : p.signalled l = some n) : p.Asks l n := by
  rw [signalled, if_pos hready, Fin.find?_eq_some_iff] at h
  exact asks_iff.mp h.1

theorem signalled_isSome (hready : p.phase = .ready) {l : Finset (Fin 8)} :
    (p.signalled l).isSome ↔ ∃ m, p.Asks l m := by
  rw [signalled, if_pos hready, Fin.isSome_find?_iff]
  exact exists_congr fun m => asks_iff

/-! ## Its ports -/

/-- What a byte at one of its ports does to a controller. -/
def write (side : Side) (p : Pic8259) (w : ℕ × UInt8) : Pic8259 :=
  if w.1 = side.command then p.writeCommand w.2
  else if w.1 = side.data then p.writeData w.2
  else p

/-- The end of an interrupt, whatever is in service. -/
theorem writeCommand_endOfInterrupt (p : Pic8259) : ∃ isr,
    p.writeCommand 0x20 = { p with isr := isr } ∧
      ∀ n ∈ p.isr, (∀ m ∈ p.isr, n ≤ m) → isr = p.isr.erase n := by
  have h : p.writeCommand 0x20 = match highest p.isr with
    | some n => { p with isr := p.isr.erase n }
    | none => p := rfl
  rw [h]
  split
  · rename_i n hn
    refine ⟨_, rfl, fun m hm hmin => ?_⟩
    rw [highest_eq_some.mp hn |>.2 m hm |>.antisymm (hmin n (highest_eq_some.mp hn).1)]
  · rename_i hnone
    refine ⟨p.isr, rfl, fun n hn hmin => ?_⟩
    rw [highest_eq_some.mpr ⟨hn, hmin⟩] at hnone
    cases hnone

theorem writeData_ready (h : p.phase = .ready) (v : UInt8) :
    p.writeData v = { p with imr := v } := by
  rw [writeData, h]

/-- The four words of a configuration. -/
theorem configured (side : Side) (o c : UInt8) (p : Pic8259) :
    let q := [(side.command, 0x11), (side.data, o), (side.data, c), (side.data, 0x01)].foldl
      (write side) p
    q.Ready (o &&& 0xF8) c ∧ q.isr = p.isr := by
  cases side <;> exact ⟨⟨rfl, rfl, rfl⟩, rfl⟩

end Pic8259

namespace Pics8259

theorem bus_write (w : ℕ × UInt8) (s : Pics8259) : bus.write w.1 w.2 s =
    ⟨Pic8259.write .master s.master w, Pic8259.write .slave s.slave w⟩ := by
  have h : bus.write w.1 w.2 s =
    if w.1 = 0x20 then { s with master := s.master.writeCommand w.2 }
    else if w.1 = 0x21 then { s with master := s.master.writeData w.2 }
    else if w.1 = 0xA0 then { s with slave := s.slave.writeCommand w.2 }
    else if w.1 = 0xA1 then { s with slave := s.slave.writeData w.2 }
    else s := rfl
  rw [h, Pic8259.write, Pic8259.write, Side.command, Side.data, Side.command, Side.data]
  split_ifs <;> first | rfl | omega

/-- A controller sees the words to its own ports. -/
theorem foldl_write (side : Side) (words : List (ℕ × UInt8)) (p : Pic8259) :
    words.foldl (Pic8259.write side) p =
      (words.filter fun w => w.1 = side.command ∨ w.1 = side.data).foldl
        (Pic8259.write side) p := by
  rw [List.foldl_filter]
  congr 1
  funext p w
  split_ifs with hw
  · rfl
  · rw [decide_eq_true_eq, not_or] at hw
    rw [Pic8259.write, if_neg hw.1, if_neg hw.2]

theorem writes_eq (words : List (ℕ × UInt8)) (s : Pics8259) : pics8259.writes words s =
    ⟨words.foldl (Pic8259.write .master) s.master, words.foldl (Pic8259.write .slave) s.slave⟩ := by
  induction words generalizing s with
  | nil => rfl
  | cons w words ih =>
    have h : pics8259.writes (w :: words) s = pics8259.writes words (bus.write w.1 w.2 s) := rfl
    rw [h, bus_write, ih]
    rfl

/-! ## The two together -/

/-- Only line 2 is the second controller's. -/
theorem cascade_iff : ∀ n : Fin 8,
    ((4 : UInt8).toBitVec.getLsbD n = true ∧ (2 : UInt8).toNat = n.val) ↔ n = 2 := by
  decide

/-- An IRQ of the first controller. -/
def ofMaster (n : Fin 8) : Fin 16 := ⟨n, n.isLt.trans (by decide)⟩

/-- An IRQ of the second. -/
def ofSlave (n : Fin 8) : Fin 16 := ⟨8 + n, Nat.add_lt_add_left n.isLt 8⟩

theorem masterLine_ofMaster (n : Fin 8) : masterLine (ofMaster n) = n := dif_pos n.isLt

theorem masterLine_ofSlave (n : Fin 8) : masterLine (ofSlave n) = 2 :=
  masterLine_high (Nat.le_add_right 8 n)

theorem slaveLine_ofSlave (n : Fin 8) : slaveLine (ofSlave n) = n := by
  ext
  simp [slaveLine, ofSlave]

theorem not_high_ofMaster (n : Fin 8) : ¬ 8 ≤ (ofMaster n).val := not_le.mpr n.isLt

theorem high_ofSlave (n : Fin 8) : 8 ≤ (ofSlave n).val := Nat.le_add_right 8 n

theorem mem_lines : n ∈ s.lines ↔
    n ∈ s.master.irr ∧ n ≠ 2 ∨ n = 2 ∧ (s.slave.signalled s.slave.irr).isSome := by
  rw [lines]
  split_ifs with hsome
  · rw [Finset.mem_insert]
    simp only [hsome, and_true]
    tauto
  · rw [Finset.mem_erase]
    simp only [hsome, and_false, or_false, Bool.false_eq_true]
    tauto

theorem mem_irr : irq ∈ s.irr ↔ (irq.val < 8 → masterLine irq ∈ s.master.irr) ∧
    (8 ≤ irq.val → slaveLine irq ∈ s.slave.irr) := by
  rw [irr, Finset.mem_filter_univ]
  split_ifs with h
  · simp [h]
  · simp [not_lt.mp h]

theorem mem_irr_ofMaster : ofMaster n ∈ s.irr ↔ n ∈ s.master.irr := by
  rw [mem_irr, masterLine_ofMaster]
  simp [not_high_ofMaster, show (ofMaster n).val < 8 from n.isLt]

theorem mem_irr_ofSlave : ofSlave n ∈ s.irr ↔ n ∈ s.slave.irr := by
  rw [mem_irr, slaveLine_ofSlave]
  simp [high_ofSlave, not_lt.mpr (high_ofSlave n)]

/-- The first controller signals on one of its own lines. -/
theorem asks_ofMaster (hn : n ≠ 2) (h : s.master.Asks s.lines n) :
    pics8259.Asks s (ofMaster n) := by
  have hirr : n ∈ s.master.irr :=
    ((mem_lines.mp h.mem).resolve_right fun hslave => hn hslave.1).1
  refine ⟨mem_irr_ofMaster.mpr hirr, fun heq => hn ?_, ⟨?_, fun hhigh => ?_⟩, ?_, fun hhigh => ?_⟩
  · rw [← masterLine_ofMaster n, heq]
    rfl
  · rw [masterLine_ofMaster]
    exact h.unmasked
  · exact absurd hhigh (not_high_ofMaster n)
  · rw [masterLine_ofMaster]
    exact h.above
  · exact absurd hhigh (not_high_ofMaster n)

/-- The second one signals, and the first passes it on. -/
theorem asks_ofSlave (h : s.master.Asks s.lines 2) (h' : s.slave.Asks s.slave.irr n) :
    pics8259.Asks s (ofSlave n) := by
  refine ⟨mem_irr_ofSlave.mpr h'.mem, fun heq => ?_, ⟨?_, fun _ => ?_⟩, ?_, fun _ => ?_⟩
  · exact absurd (congrArg Fin.val heq) (by change 8 + n.val ≠ 2; omega)
  · rw [masterLine_ofSlave]
    exact h.unmasked
  · rw [slaveLine_ofSlave]
    exact h'.unmasked
  · rw [masterLine_ofSlave]
    exact h.above
  · rw [slaveLine_ofSlave]
    exact h'.above

/-- An IRQ that asks is signalled. -/
theorem signalled_of_asks (hs : s.slave.phase = .ready) (h : pics8259.Asks s irq) :
    s.master.Asks s.lines (masterLine irq) := by
  refine ⟨mem_lines.mpr ?_, h.unmasked.master, h.above⟩
  obtain ⟨hlow, hhigh⟩ := mem_irr.mp h.request
  by_cases hirq : irq.val < 8
  · refine .inl ⟨hlow hirq, fun heq => h.device (Fin.ext ?_)⟩
    rw [masterLine, dif_pos hirq] at heq
    have hval : irq.val = 2 := congrArg Fin.val heq
    exact hval
  · have hirq := not_lt.mp hirq
    exact .inr ⟨masterLine_high hirq, (Pic8259.signalled_isSome hs).mpr
      ⟨slaveLine irq, hhigh hirq, h.unmasked.slave hirq, h.slave_above hirq⟩⟩

/-- **What the processor is given** while it is signalled. -/
theorem acknowledge_cases (h : pics8259.Ready o₁ o₂ s) (hint : pics8259.int s = true) :
    ∃ irq, pics8259.Asks s irq ∧ s.acknowledge = (vector o₁ o₂ irq,
      ⟨s.master.serve (masterLine irq),
        if 8 ≤ irq.val then s.slave.serve (slaveLine irq) else s.slave⟩) := by
  obtain ⟨hm, hs⟩ := h
  obtain ⟨n, hn⟩ := Option.isSome_iff_exists.mp hint
  have hasks := Pic8259.signalled_eq_some hm.phase hn
  rw [acknowledge, hn]
  dsimp only
  rw [hm.cascade, hs.cascade, hm.base, hs.base]
  split_ifs with hcascade
  · obtain rfl := (cascade_iff n).mp hcascade
    have hslave : (s.slave.signalled s.slave.irr).isSome :=
      (mem_lines.mp hasks.mem).elim (fun h => absurd rfl h.2) And.right
    obtain ⟨m, hm⟩ := Option.isSome_iff_exists.mp hslave
    refine ⟨ofSlave m, asks_ofSlave hasks (Pic8259.signalled_eq_some hs.phase hm), ?_⟩
    rw [hm, vector, if_neg (not_lt.mpr (high_ofSlave m)), if_pos (high_ofSlave m),
      masterLine_ofSlave, slaveLine_ofSlave, ofSlave, Nat.add_sub_cancel_left]
  · refine ⟨ofMaster n, asks_ofMaster (fun heq => hcascade ((cascade_iff n).mpr heq)) hasks, ?_⟩
    rw [vector, if_pos (show (ofMaster n).val < 8 from n.isLt), if_neg (not_high_ofMaster n),
      masterLine_ofMaster]
    rfl

/-- The configuration of a controller is the same. -/
def SameConfig (p q : Pic8259) : Prop :=
  q.phase = p.phase ∧ q.base = p.base ∧ q.cascade = p.cascade

theorem ready_of_sameConfig {s' : Pics8259} (h : pics8259.Ready o₁ o₂ s)
    (hm : SameConfig s.master s'.master) (hs : SameConfig s.slave s'.slave) :
    pics8259.Ready o₁ o₂ s' :=
  ⟨⟨hm.1.trans h.1.phase, hm.2.1.trans h.1.base, hm.2.2.trans h.1.cascade⟩,
    ⟨hs.1.trans h.2.phase, hs.2.1.trans h.2.base, hs.2.2.trans h.2.cascade⟩⟩

theorem ready_set {side : Side} (h : pics8259.Ready o₁ o₂ s) (hp : SameConfig (s.side side) p) :
    pics8259.Ready o₁ o₂ (s.set side p) := by
  cases side with
  | master => exact ready_of_sameConfig h hp ⟨rfl, rfl, rfl⟩
  | slave => exact ready_of_sameConfig h ⟨rfl, rfl, rfl⟩ hp

theorem side_set (s : Pics8259) (side other : Side) (p : Pic8259) :
    (s.set side p).side other = if other = side then p else s.side other := by
  cases side <;> cases other <;> rfl

theorem side_set_self (s : Pics8259) (side : Side) (p : Pic8259) :
    (s.set side p).side side = p := by
  rw [side_set, if_pos rfl]

theorem side_set_of_ne (s : Pics8259) {side other : Side} (h : other ≠ side) (p : Pic8259) :
    (s.set side p).side other = s.side other := by
  rw [side_set, if_neg h]

/-- What a change of one controller keeps of it is kept of both. -/
theorem side_set_congr {α : Type} (f : Pic8259 → α) {side : Side} (h : f p = f (s.side side))
    (other : Side) : f ((s.set side p).side other) = f (s.side other) := by
  rw [side_set]
  split_ifs with heq
  · rw [heq, h]
  · rfl

theorem phase_side (h : pics8259.Ready o₁ o₂ s) (side : Side) : (s.side side).phase = .ready := by
  cases side with
  | master => exact h.1.phase
  | slave => exact h.2.phase

theorem write_data (h : pics8259.Ready o₁ o₂ s) (side : Side) (v : UInt8) :
    pics8259.bus.write side.data v s = s.set side { s.side side with imr := v } := by
  rw [← Pic8259.writeData_ready (phase_side h side)]
  cases side <;> rfl

theorem write_command (side : Side) (v : UInt8) (s : Pics8259) :
    pics8259.bus.write side.command v s = s.set side ((s.side side).writeCommand v) := by
  cases side <;> rfl

/-- The requests have no part in the configuration, the masks and the interrupts in service. -/
theorem keeps_requests (x y : Finset (Fin 8)) (s : Pics8259) :
    pics8259.Keeps s ⟨{ s.master with irr := x }, { s.slave with irr := y }⟩ where
  ready _ _ h := ready_of_sameConfig h ⟨rfl, rfl, rfl⟩ ⟨rfl, rfl, rfl⟩
  imr side := by cases side <;> rfl
  isr side := by cases side <;> rfl

theorem keeps_raise (irq : Fin 16) (s : Pics8259) : pics8259.Keeps s (s.raise irq) := by
  rw [raise]
  split_ifs
  · exact keeps_requests _ s.slave.irr s
  · exact keeps_requests s.master.irr _ s

theorem keeps_lower (irq : Fin 16) (s : Pics8259) : pics8259.Keeps s (s.lower irq) := by
  rw [lower]
  split_ifs
  · exact keeps_requests _ s.slave.irr s
  · exact keeps_requests s.master.irr _ s

theorem mem_irr_raise (irq : Fin 16) (s : Pics8259) : irq ∈ (s.raise irq).irr := by
  rw [mem_irr, raise]
  split_ifs with h
  · exact ⟨fun _ => Finset.mem_insert_self _ _, fun hhigh => absurd h (not_lt.mpr hhigh)⟩
  · exact ⟨fun hlow => absurd hlow h, fun _ => Finset.mem_insert_self _ _⟩

/-- An interrupt that is acknowledged is in service. -/
theorem serves_serve (s : Pics8259) (irq : Fin 16) : pics8259.Serves s irq
    ⟨s.master.serve (masterLine irq),
      if 8 ≤ irq.val then s.slave.serve (slaveLine irq) else s.slave⟩ := by
  by_cases hhigh : 8 ≤ irq.val
  · rw [if_pos hhigh]
    exact ⟨fun _ _ h => ready_of_sameConfig h ⟨rfl, rfl, rfl⟩ ⟨rfl, rfl, rfl⟩,
      fun side => by cases side <;> rfl, rfl, (if_pos hhigh).symm⟩
  · rw [if_neg hhigh]
    exact ⟨fun _ _ h => ready_of_sameConfig h ⟨rfl, rfl, rfl⟩ ⟨rfl, rfl, rfl⟩,
      fun side => by cases side <;> rfl, rfl, (if_neg hhigh).symm⟩

/-- The vector of a request that has gone away. -/
theorem acknowledge_of_not_int (hint : pics8259.int s = false) :
    s.acknowledge = (s.master.base + 7, s) := by
  have hnone : s.master.signalled s.lines = none := by
    rw [← Option.not_isSome_iff_eq_none]
    exact Bool.eq_false_iff.mp hint
  rw [acknowledge, hnone]

theorem configure {words : List (ℕ × UInt8)} (hm : Configures words .master o₁ 4)
    (hs : Configures words .slave o₂ 2) (s : Pics8259) :
    pics8259.Ready (o₁ &&& 0xF8) (o₂ &&& 0xF8) (pics8259.writes words s) ∧
      ∀ side, pics8259.isr side (pics8259.writes words s) = pics8259.isr side s := by
  rw [writes_eq, foldl_write .master, foldl_write .slave, hm, hs]
  obtain ⟨hm, hmisr⟩ := Pic8259.configured .master o₁ 4 s.master
  obtain ⟨hs, hsisr⟩ := Pic8259.configured .slave o₂ 2 s.slave
  refine ⟨⟨hm, hs⟩, fun side => ?_⟩
  cases side with
  | master => exact hmisr
  | slave => exact hsisr

end Pics8259

open Pics8259

/-- **These controllers do what is documented.** -/
theorem pics8259_documented : pics8259.Documented where
  read_mask side s := by
    refine ⟨?_, fun _ _ h => h, fun _ => rfl, fun _ => rfl⟩
    cases side <;> rfl
  configure words o₁ o₂ s hm hs :=
    ⟨(configure hm hs s).1, fun side => ((configure hm hs s).2 side).le⟩
  write_mask side v o₁ o₂ s h := by
    rw [write_data h]
    refine ⟨ready_set h ⟨rfl, rfl, rfl⟩, ?_, fun other hne => ?_, side_set_congr Pic8259.isr rfl⟩
    · exact congrArg Pic8259.imr (side_set_self s side _)
    · exact congrArg Pic8259.imr (side_set_of_ne s hne _)
  end_of_interrupt side o₁ o₂ s h := by
    obtain ⟨isr, heq, hisr⟩ := (s.side side).writeCommand_endOfInterrupt
    rw [write_command, heq]
    refine ⟨ready_set h ⟨rfl, rfl, rfl⟩, side_set_congr Pic8259.imr rfl, fun other hne => ?_,
      fun n hn hmin => ?_⟩
    · exact congrArg Pic8259.isr (side_set_of_ne s hne _)
    · exact (congrArg Pic8259.isr (side_set_self s side _)).trans (hisr n hn hmin)
  raise irq s _ := ⟨keeps_raise irq s, mem_irr_raise irq s⟩
  lower irq s _ := keeps_lower irq s
  int_iff o₁ o₂ s h := by
    refine ⟨fun hint => ?_, fun ⟨irq, hasks⟩ => ?_⟩
    · obtain ⟨irq, hasks, -⟩ := acknowledge_cases h hint
      exact ⟨irq, hasks⟩
    · exact (Pic8259.signalled_isSome h.1.phase).mpr ⟨_, signalled_of_asks h.2.phase hasks⟩
  inta o₁ o₂ s h hint := by
    obtain ⟨irq, hasks, heq⟩ := acknowledge_cases h hint
    have hinta : pics8259.inta s = s.acknowledge := rfl
    rw [hinta, heq]
    exact ⟨irq, hasks, rfl, serves_serve s irq⟩
  inta_default o₁ o₂ s h hint := by
    have hinta : pics8259.inta s = s.acknowledge := rfl
    rw [hinta, acknowledge_of_not_int hint, h.1.base]
    exact ⟨.inl rfl, h, fun _ => rfl⟩

end YontiOs.Interrupts
