import YontiOs.Machinery.Ports
import YontiOs.Machinery.Word

/-!
# Interrupts/Chips — the interrupt controllers of a PC

The two 8259s are hardware, and the kernel has their driver only.  `PicPair` is the pair as its
ports, the devices and the processor meet it, over a state that stays open; the second controller
signals to line 2 of the first.  What the driver relies on of their documentation is
`PicPair.Documented`: each of its fields is about one access, one change of a line or one
acknowledge.
-/

namespace YontiOs.Interrupts

/-! ## IRQs, lines and vectors -/

/-- There are sixteen IRQs. -/
scoped instance neZero_irqs : NeZero 16 := ⟨Nat.succ_ne_zero 15⟩

/-- A controller has eight lines. -/
scoped instance neZero_lines : NeZero 8 := ⟨Nat.succ_ne_zero 7⟩

/-- The line of the first controller an IRQ comes in on. -/
def masterLine (irq : Fin 16) : Fin 8 := if h : irq.val < 8 then ⟨irq, h⟩ else 2

/-- The line of the second controller. -/
def slaveLine (irq : Fin 16) : Fin 8 := Fin.ofNat 8 irq

/-- The vector of a legacy IRQ. -/
def vector (o₁ o₂ : UInt8) (irq : Fin 16) : UInt8 :=
  if irq.val < 8 then o₁ + UInt8.ofNat irq else o₂ + UInt8.ofNat (irq - 8)

variable {irq : Fin 16}

theorem masterLine_high (h : 8 ≤ irq.val) : masterLine irq = 2 := dif_neg (not_lt.mpr h)

/-- One of the two controllers. -/
inductive Side
  | master
  | slave
deriving DecidableEq, Repr

namespace Side

def command : Side → ℕ
  | master => 0x20
  | slave => 0xA0

def data : Side → ℕ
  | master => 0x21
  | slave => 0xA1

end Side

/-! ## The controllers -/

/-- Two controllers: their ports, the lines of the devices, the signal to the processor and its
answer; the masks, the interrupts in service and the requests that stand; and the states in which
they are configured with two offsets, as a cascade in 8086 mode, fully nested, with no interrupt
ended but by a command. -/
structure PicPair (σ : Type) where
  bus : PortBus σ
  raise : Fin 16 → σ → σ
  lower : Fin 16 → σ → σ
  int : σ → Bool
  inta : σ → UInt8 × σ
  imr : Side → σ → UInt8
  isr : Side → σ → Finset (Fin 8)
  irr : σ → Finset (Fin 16)
  Ready : UInt8 → UInt8 → σ → Prop

/-- The words a controller gets are the four of a configuration. -/
def Configures (words : List (ℕ × UInt8)) (side : Side) (offset cascade : UInt8) : Prop :=
  words.filter (fun w => w.1 = side.command ∨ w.1 = side.data) =
    [(side.command, 0x11), (side.data, offset), (side.data, cascade), (side.data, 0x01)]

namespace PicPair

variable {σ : Type}

def masked (c : PicPair σ) (side : Side) (s : σ) (n : Fin 8) : Bool :=
  (c.imr side s).toBitVec.getLsbD n

/-- Bytes written to ports, one after another. -/
def writes (c : PicPair σ) (words : List (ℕ × UInt8)) (s : σ) : σ :=
  words.foldl (fun s w => c.bus.write w.1 w.2 s) s

/-- Configuration, masks and interrupts in service are the same. -/
structure Keeps (c : PicPair σ) (s s' : σ) : Prop where
  ready : ∀ o₁ o₂, c.Ready o₁ o₂ s → c.Ready o₁ o₂ s'
  imr : ∀ side, c.imr side s' = c.imr side s
  isr : ∀ side, c.isr side s' = c.isr side s

/-- No mask keeps an IRQ from the processor. -/
structure Unmasked (c : PicPair σ) (s : σ) (irq : Fin 16) : Prop where
  master : c.masked .master s (masterLine irq) = false
  slave : 8 ≤ irq.val → c.masked .slave s (slaveLine irq) = false

/-- A device has a request that stands and is not masked, of higher priority than all in service. -/
structure Asks (c : PicPair σ) (s : σ) (irq : Fin 16) : Prop where
  request : irq ∈ c.irr s
  device : irq ≠ 2
  unmasked : c.Unmasked s irq
  above : ∀ n ∈ c.isr .master s, masterLine irq < n
  slave_above : 8 ≤ irq.val → ∀ n ∈ c.isr .slave s, slaveLine irq < n

/-- An interrupt is taken up: it is in service at each controller it came through. -/
structure Serves (c : PicPair σ) (s : σ) (irq : Fin 16) (s' : σ) : Prop where
  ready : ∀ o₁ o₂, c.Ready o₁ o₂ s → c.Ready o₁ o₂ s'
  imr : ∀ side, c.imr side s' = c.imr side s
  master : c.isr .master s' = insert (masterLine irq) (c.isr .master s)
  slave : c.isr .slave s' =
    if 8 ≤ irq.val then insert (slaveLine irq) (c.isr .slave s) else c.isr .slave s

/-- **What the documentation of the controllers says.** -/
structure Documented (c : PicPair σ) : Prop where
  /-- A read of the data port gives the mask. -/
  read_mask : ∀ side s, (c.bus.read side.data s).1 = c.imr side s ∧
    c.Keeps s (c.bus.read side.data s).2
  /-- Four words configure a controller, of the offset only the upper five bits count, and no
  interrupt is taken up by it. -/
  configure : ∀ words o₁ o₂ s, Configures words .master o₁ 4 → Configures words .slave o₂ 2 →
    c.Ready (o₁ &&& 0xF8) (o₂ &&& 0xF8) (c.writes words s) ∧
      ∀ side, c.isr side (c.writes words s) ⊆ c.isr side s
  /-- A configured controller takes a byte at the data port for its mask. -/
  write_mask : ∀ side v o₁ o₂ s, c.Ready o₁ o₂ s →
    c.Ready o₁ o₂ (c.bus.write side.data v s) ∧
      c.imr side (c.bus.write side.data v s) = v ∧
      (∀ other, other ≠ side → c.imr other (c.bus.write side.data v s) = c.imr other s) ∧
      ∀ other, c.isr other (c.bus.write side.data v s) = c.isr other s
  /-- The end of an interrupt that is not named ends the one of highest priority. -/
  end_of_interrupt : ∀ side o₁ o₂ s, c.Ready o₁ o₂ s →
    c.Ready o₁ o₂ (c.bus.write side.command 0x20 s) ∧
      (∀ other, c.imr other (c.bus.write side.command 0x20 s) = c.imr other s) ∧
      (∀ other, other ≠ side → c.isr other (c.bus.write side.command 0x20 s) = c.isr other s) ∧
      ∀ n ∈ c.isr side s, (∀ m ∈ c.isr side s, n ≤ m) →
        c.isr side (c.bus.write side.command 0x20 s) = (c.isr side s).erase n
  /-- A device asks for an interrupt. -/
  raise : ∀ irq s, irq ≠ 2 → c.Keeps s (c.raise irq s) ∧ irq ∈ c.irr (c.raise irq s)
  /-- A device asks no longer. -/
  lower : ∀ irq s, irq ≠ 2 → c.Keeps s (c.lower irq s)
  /-- The processor is signalled while an interrupt asks. -/
  int_iff : ∀ o₁ o₂ s, c.Ready o₁ o₂ s → (c.int s = true ↔ ∃ irq, c.Asks s irq)
  /-- One that asks is taken up. -/
  inta : ∀ o₁ o₂ s, c.Ready o₁ o₂ s → c.int s = true →
    ∃ irq, c.Asks s irq ∧ (c.inta s).1 = vector o₁ o₂ irq ∧ c.Serves s irq (c.inta s).2
  /-- If the request is gone when the processor answers, it gets the vector of line 7. -/
  inta_default : ∀ o₁ o₂ s, c.Ready o₁ o₂ s → c.int s = false →
    ((c.inta s).1 = o₁ + 7 ∨ (c.inta s).1 = o₂ + 7) ∧ c.Ready o₁ o₂ (c.inta s).2 ∧
      ∀ side, c.imr side (c.inta s).2 = c.imr side s

end PicPair

end YontiOs.Interrupts
