import YontiOs.Apic.Table
import YontiOs.Machinery.Mmio
import YontiOs.Machinery.Word

/-!
# Apic/Routing — the pins the legacy IRQs are routed to

The drivers of the LAPIC and of the I/O APIC, and `apic::init`, which enables the one and programs
the other.  The I/O APIC has a selector and a window: `IoApicView` reads the log of a driver as
accesses of the registers behind the window.

A pin is the distance of a GSI from the base of the I/O APIC, cast to `u8`.  `init` checks the cast
distance, so the IRQs go to the right pins just when the distances fit (`init_routes_iff`).
-/

namespace YontiOs.Apic

open MmioM

/-! ## The LAPIC -/

def lapicId : ℕ := 0x020
def lapicVersion : ℕ := 0x030
def lapicSvr : ℕ := 0x0F0
def svrEnable : UInt32 := (1 : UInt32) <<< 8

structure Lapic where
  base : ℕ

namespace Lapic

def new (base : ℕ) : MmioM Lapic := do
  assert (base ≠ 0)
  return ⟨base⟩

def read (lapic : Lapic) (offsetBytes : ℕ) : MmioM UInt32 := do
  assert (offsetBytes % 4 = 0)
  readVolatile ⟨lapic.base, offsetBytes⟩

def write (lapic : Lapic) (offsetBytes : ℕ) (value : UInt32) : MmioM Unit := do
  assert (offsetBytes % 4 = 0)
  writeVolatile ⟨lapic.base, offsetBytes⟩ value

def id (lapic : Lapic) : MmioM UInt32 := do
  let id := ((← lapic.read lapicId) >>> 24) &&& 0xFF
  assert (id < 16)
  return id

def version (lapic : Lapic) : MmioM UInt32 := do
  let v := (← lapic.read lapicVersion) &&& 0xFF
  assert (v > 0)
  return v

def enable (lapic : Lapic) (spuriousVector : UInt8) : MmioM Unit := do
  let value := spuriousVector.toUInt32 ||| svrEnable
  lapic.write lapicSvr value
  let svr ← lapic.read lapicSvr
  assert (svr &&& svrEnable ≠ 0)

end Lapic

/-! ## The I/O APIC -/

def ioregsel : ℕ := 0x00
def iowin : ℕ := 0x10
def ioapicver : UInt8 := 0x01
def ioredtblBase : UInt8 := 0x10
def redirFlags : UInt32 := 0

structure IoApic where
  base : ℕ
  gsiBase : UInt32
  maxRedirs : UInt8

namespace IoApic

def readReg (base : ℕ) (index : UInt8) : MmioM UInt32 := do
  writeVolatile ⟨base, ioregsel⟩ index.toUInt32
  readVolatile ⟨base, iowin⟩

def writeReg (base : ℕ) (index : UInt8) (value : UInt32) : MmioM Unit := do
  writeVolatile ⟨base, ioregsel⟩ index.toUInt32
  writeVolatile ⟨base, iowin⟩ value

def new (base : ℕ) (gsiBase : UInt32) : MmioM IoApic := do
  assert (base ≠ 0)
  let version ← readReg base ioapicver
  let maxRedirs := ((version >>> 16) &&& 0xFF).toUInt8
  assert (maxRedirs > 0)
  return ⟨base, gsiBase, maxRedirs⟩

/-- `set_irq(irq, vector)`: the index of a register is a `u8`. -/
def setIrq (ioapic : IoApic) (irq vector : UInt8) : MmioM Unit := do
  assert (irq ≤ ioapic.maxRedirs)
  assert (vector ≥ 32)
  let doubled ← checked (Word.byte (irq.toNat * 2))
  let idx ← checked (Word.byte (ioredtblBase.toNat + doubled.toNat))
  let lo := vector.toUInt32 ||| redirFlags
  let hi : UInt32 := 0
  writeReg ioapic.base idx lo
  let next ← checked (Word.byte (idx.toNat + 1))
  writeReg ioapic.base next hi

end IoApic

/-! ## Initialisation -/

/-- `InterruptIndex::Timer.as_u8()`. -/
def timerVector : UInt8 := 32

/-- `InterruptIndex::Keyboard.as_u8()`. -/
def keyboardVector : UInt8 := 33

/-- The GSI of a legacy IRQ. -/
def irqGsi (info : ApicInfo) (irq : Fin 16) : UInt32 :=
  (buildIrqGsiMap info.overrides.toList info.overrideCount)[irq]

/-- The routing of one legacy IRQ in `init`. -/
def route (info : ApicInfo) (ioapic : IoApic) (irq : Fin 16) (vector : UInt8) : MmioM Unit := do
  assert (irqGsi info irq ≥ ioapic.gsiBase)
  ioapic.setIrq (irqGsi info irq - ioapic.gsiBase).toUInt8 vector

/-- `init(info, phys_offset)`. -/
def init (info : ApicInfo) (physOffset : ℕ) : MmioM Bool := do
  assert (info.lapicPhysBase ≠ 0)
  assert (info.ioapicCount ≥ 1)
  assert (info.ioapicAddrs[0] ≠ 0)
  let lapicVirt ← checked (Word.add physOffset info.lapicPhysBase.toNat)
  let lapic ← Lapic.new lapicVirt
  let _lapicId ← lapic.id
  let _lapicVer ← lapic.version
  lapic.enable 0xFF
  let ioapicVirt ← checked (Word.add physOffset info.ioapicAddrs[0].toNat)
  let ioapic ← IoApic.new ioapicVirt info.ioapicGsiBases[0]
  assert (ioapic.gsiBase ≤ 256)
  route info ioapic 0 timerVector
  route info ioapic 1 keyboardVector
  return true

/-- Where `init` looks for the I/O APIC. -/
def ApicInfo.ioapicAt (info : ApicInfo) (physOffset : ℕ) : ℕ :=
  physOffset + info.ioapicAddrs[0].toNat

/-! ## The registers behind the window -/

/-- An access of a register of the I/O APIC, by its index. -/
inductive RegAccess
  | read (index : ℕ) (answer : UInt32)
  | write (index : ℕ) (value : UInt32)
  deriving DecidableEq, Repr

/-- What an I/O APIC has seen: the index in its selector, and the accesses through its window. -/
structure IoApicView where
  selector : UInt32
  accesses : List RegAccess
  deriving DecidableEq, Repr

namespace IoApicView

/-- One access more, by the I/O APIC at a base address. -/
def step (base : ℕ) (v : IoApicView) : Access → IoApicView
  | .read reg answer =>
    if reg = ⟨base, iowin⟩ then { v with accesses := v.accesses ++ [.read v.selector.toNat answer] }
    else v
  | .write reg value =>
    if reg = ⟨base, ioregsel⟩ then { v with selector := value }
    else if reg = ⟨base, iowin⟩ then
      { v with accesses := v.accesses ++ [.write v.selector.toNat value] }
    else v

/-- What the I/O APIC at a base address has seen of a log. -/
def ofLog (base : ℕ) (log : List Access) : IoApicView := log.foldl (step base) ⟨0, []⟩

variable {base : ℕ} {log as : List Access} {v : UInt32}

theorem ofLog_append : ofLog base (log ++ as) = as.foldl (step base) (ofLog base log) :=
  List.foldl_append

/-- An access of another register goes unseen. -/
theorem ofLog_of_offset {b offset : ℕ} (h : offset ≠ ioregsel ∧ offset ≠ iowin) :
    ofLog base (log ++ [.read ⟨b, offset⟩ v]) = ofLog base log ∧
      ofLog base (log ++ [.write ⟨b, offset⟩ v]) = ofLog base log := by
  have hsel : (⟨b, offset⟩ : Reg) ≠ ⟨base, ioregsel⟩ := fun heq => h.1 (congrArg Reg.offset heq)
  have hwin : (⟨b, offset⟩ : Reg) ≠ ⟨base, iowin⟩ := fun heq => h.2 (congrArg Reg.offset heq)
  rw [ofLog_append, ofLog_append]
  exact ⟨if_neg hwin, (if_neg hsel).trans (if_neg hwin)⟩

end IoApicView

open IoApicView

variable {dev : Device} {log : List Access} {lapic : Lapic} {ioapic : IoApic} {info : ApicInfo}
  {base physOffset : ℕ} {index irq vector : UInt8} {value : UInt32} {i : Fin 16}

/-! ## What the drivers do -/

namespace Lapic

/-- A read of the LAPIC goes unseen by the I/O APIC. -/
theorem ofLog_read {offset : ℕ} {log' : List Access}
    (h : lapic.read offset dev log = some (value, log'))
    (hoff : offset ≠ ioregsel ∧ offset ≠ iowin) : ofLog base log' = ofLog base log := by
  rw [read, assert_bind] at h
  obtain ⟨-, h⟩ := h
  obtain ⟨-, rfl⟩ := Prod.mk.inj (Option.some.inj h)
  exact (ofLog_of_offset hoff).1

theorem ofLog_write {offset : ℕ} {log' : List Access} {u : Unit}
    (h : lapic.write offset value dev log = some (u, log'))
    (hoff : offset ≠ ioregsel ∧ offset ≠ iowin) : ofLog base log' = ofLog base log := by
  rw [write, assert_bind] at h
  obtain ⟨-, h⟩ := h
  obtain ⟨-, rfl⟩ := Prod.mk.inj (Option.some.inj h)
  exact (ofLog_of_offset hoff).2

/-- So does all that `init` does with it. -/
theorem ofLog_id {log' : List Access} (h : lapic.id dev log = some (value, log')) :
    ofLog base log' = ofLog base log := by
  rw [id] at h
  obtain ⟨answer, log₁, hread, h⟩ := bind_eq_some.mp h
  obtain ⟨-, rfl⟩ := Prod.mk.inj (pure_eq_some.mp (assert_bind.mp h).2)
  exact ofLog_read hread (by decide)

theorem ofLog_version {log' : List Access} (h : lapic.version dev log = some (value, log')) :
    ofLog base log' = ofLog base log := by
  rw [version] at h
  obtain ⟨answer, log₁, hread, h⟩ := bind_eq_some.mp h
  obtain ⟨-, rfl⟩ := Prod.mk.inj (pure_eq_some.mp (assert_bind.mp h).2)
  exact ofLog_read hread (by decide)

theorem ofLog_enable {log' : List Access} {u : Unit}
    (h : lapic.enable vector dev log = some (u, log')) : ofLog base log' = ofLog base log := by
  simp only [enable, bind_eq_some, assert_eq_some] at h
  obtain ⟨_, log₁, hwrite, answer, log₂, hread, -, h⟩ := h
  obtain ⟨-, rfl⟩ := Prod.mk.inj h
  rw [ofLog_read hread (by decide), ofLog_write hwrite (by decide)]

end Lapic

/-- The last pin, as the version register has it. -/
def lastPin (version : UInt32) : ℕ := ((version >>> 16) &&& 0xFF).toNat

theorem lastPin_lt (version : UInt32) : lastPin version < 2 ^ 8 := by
  rw [lastPin, UInt32.toNat_and]
  exact Nat.and_lt_two_pow _ (by decide)

namespace IoApic

/-- Reading a register selects it and reads the window. -/
theorem readReg_spec {log' : List Access} (h : readReg base index dev log = some (value, log')) :
    (ofLog base log').accesses = (ofLog base log).accesses ++ [.read index.toNat value] := by
  obtain ⟨rfl, rfl⟩ := Prod.mk.inj (Option.some.inj h)
  rw [List.append_assoc, ofLog_append]
  simp [step, ioregsel, iowin]

/-- Writing a register selects it and writes the window. -/
theorem writeReg_spec {log' : List Access} {u : Unit}
    (h : writeReg base index value dev log = some (u, log')) :
    (ofLog base log').accesses = (ofLog base log).accesses ++ [.write index.toNat value] := by
  obtain ⟨rfl, rfl⟩ := Prod.mk.inj (Option.some.inj h)
  rw [List.append_assoc, ofLog_append]
  simp [step, ioregsel, iowin]

/-- **Programming a pin** writes the two registers of its redirection entry. -/
theorem setIrq_spec {log' : List Access} {u : Unit}
    (h : ioapic.setIrq irq vector dev log = some (u, log')) :
    irq ≤ ioapic.maxRedirs ∧ (ofLog ioapic.base log').accesses = (ofLog ioapic.base log).accesses ++
      [.write (0x10 + 2 * irq.toNat) vector.toUInt32, .write (0x10 + 2 * irq.toNat + 1) 0] := by
  simp only [setIrq, assert_bind, checked_bind] at h
  obtain ⟨hirq, -, doubled, hdouble, idx, hidx, h⟩ := h
  obtain ⟨_, log₁, hlo, h⟩ := bind_eq_some.mp h
  obtain ⟨next, hnext, hhi⟩ := checked_bind.mp h
  have hd : doubled.toNat = irq.toNat * 2 := Word.byte_eq_some hdouble
  have hi : idx.toNat = 0x10 + doubled.toNat := Word.byte_eq_some hidx
  have hn : next.toNat = idx.toNat + 1 := Word.byte_eq_some hnext
  have hlow : vector.toUInt32 ||| redirFlags = vector.toUInt32 := UInt32.or_zero
  refine ⟨hirq, ?_⟩
  rw [writeReg_spec hhi, writeReg_spec hlo, hn, hi, hd, hlow, mul_comm, List.append_assoc]
  rfl

/-- A new driver has read the version register, and knows the last pin from it. -/
theorem new_spec {gsiBase : UInt32} {log' : List Access}
    (h : new base gsiBase dev log = some (ioapic, log')) :
    ioapic.base = base ∧ ioapic.gsiBase = gsiBase ∧
      ∃ version : UInt32, ioapic.maxRedirs.toNat = lastPin version ∧
        (ofLog base log').accesses = (ofLog base log).accesses ++ [.read 1 version] := by
  rw [new, assert_bind] at h
  obtain ⟨version, log₁, hread, h⟩ := bind_eq_some.mp h.2
  rw [assert_bind, pure_eq_some] at h
  obtain ⟨rfl, rfl⟩ := Prod.mk.inj h.2
  refine ⟨rfl, rfl, version, ?_, readReg_spec hread⟩
  exact (UInt32.toNat_toUInt8 _).trans (Nat.mod_eq_of_lt (lastPin_lt version))

end IoApic

/-- **Routing one IRQ** programs the pin that its distance from the base is cast to. -/
theorem route_spec {log' : List Access} {u : Unit}
    (h : route info ioapic i vector dev log = some (u, log')) :
    ioapic.gsiBase.toNat ≤ (irqGsi info i).toNat ∧
      ((irqGsi info i).toNat - ioapic.gsiBase.toNat) % 256 ≤ ioapic.maxRedirs.toNat ∧
      (ofLog ioapic.base log').accesses = (ofLog ioapic.base log).accesses ++
        [.write (0x10 + 2 * (((irqGsi info i).toNat - ioapic.gsiBase.toNat) % 256)) vector.toUInt32,
          .write (0x10 + 2 * (((irqGsi info i).toNat - ioapic.gsiBase.toNat) % 256) + 1) 0] := by
  rw [route, assert_bind] at h
  obtain ⟨hge, h⟩ := h
  have hpin : (irqGsi info i - ioapic.gsiBase).toUInt8.toNat =
      ((irqGsi info i).toNat - ioapic.gsiBase.toNat) % 256 := by
    rw [UInt32.toNat_toUInt8, UInt32.toNat_sub_of_le _ _ hge]
  obtain ⟨hirq, hlog⟩ := IoApic.setIrq_spec h
  rw [hpin] at hlog
  exact ⟨hge, hpin ▸ hirq, hlog⟩

/-- **The legacy IRQs are routed**: after the read of the version register, the redirection entries
of the pins of timer and keyboard are written, and these are pins the I/O APIC has. -/
def Routed (accesses : List RegAccess) (gsiBase timerGsi keyboardGsi : ℕ) : Prop :=
  ∃ version : UInt32,
    accesses = [.read 1 version,
      .write (0x10 + 2 * (timerGsi - gsiBase)) 32, .write (0x10 + 2 * (timerGsi - gsiBase) + 1) 0,
      .write (0x10 + 2 * (keyboardGsi - gsiBase)) 33,
      .write (0x10 + 2 * (keyboardGsi - gsiBase) + 1) 0] ∧
    timerGsi - gsiBase ≤ lastPin version ∧ keyboardGsi - gsiBase ≤ lastPin version

/-- **When the legacy IRQs are routed**, for every device and all that firmware may say: once `init`
has returned true, timer and keyboard are on their pins exactly if the distances of their GSIs from
the base of the I/O APIC fit into a `u8`. -/
theorem init_routes_iff (h : init info physOffset dev [] = some (true, log)) :
    Routed (ofLog (physOffset + info.ioapicAddrs[0].toNat) log).accesses
        info.ioapicGsiBases[0].toNat (irqGsi info 0).toNat (irqGsi info 1).toNat ↔
      (irqGsi info 0).toNat - info.ioapicGsiBases[0].toNat < 256 ∧
        (irqGsi info 1).toNat - info.ioapicGsiBases[0].toNat < 256 := by
  -- the steps of `init`
  obtain ⟨-, h⟩ := assert_bind.mp h
  obtain ⟨-, h⟩ := assert_bind.mp h
  obtain ⟨-, h⟩ := assert_bind.mp h
  obtain ⟨lapicVirt, -, h⟩ := checked_bind.mp h
  obtain ⟨lapic, log₁, hlapic, h⟩ := bind_eq_some.mp h
  obtain ⟨_, log₂, hid, h⟩ := bind_eq_some.mp h
  obtain ⟨_, log₃, hver, h⟩ := bind_eq_some.mp h
  obtain ⟨_, log₄, henable, h⟩ := bind_eq_some.mp h
  obtain ⟨ioapicVirt, hvirt, h⟩ := checked_bind.mp h
  obtain ⟨ioapic, log₅, hnew, h⟩ := bind_eq_some.mp h
  obtain ⟨-, h⟩ := assert_bind.mp h
  obtain ⟨_, log₆, htimer, h⟩ := bind_eq_some.mp h
  obtain ⟨_, log₇, hkeyboard, h⟩ := bind_eq_some.mp h
  obtain ⟨-, rfl⟩ := Prod.mk.inj (pure_eq_some.mp h)
  obtain ⟨rfl, -⟩ := Word.add_eq_some hvirt
  -- what the I/O APIC has seen of them
  obtain ⟨-, hlapic⟩ := assert_bind.mp hlapic
  obtain ⟨-, rfl⟩ := Prod.mk.inj (pure_eq_some.mp hlapic)
  obtain ⟨hbase, hgsi, version, hmax, hlog₅⟩ := IoApic.new_spec hnew
  rw [Lapic.ofLog_enable henable, Lapic.ofLog_version hver, Lapic.ofLog_id hid] at hlog₅
  obtain ⟨-, htpin, hlog₆⟩ := route_spec htimer
  obtain ⟨-, hkpin, hlog₇⟩ := route_spec hkeyboard
  rw [hbase] at hlog₆ hlog₇
  rw [hgsi] at hlog₆ hlog₇ htpin hkpin
  rw [hlog₇, hlog₆, hlog₅]
  rw [hmax] at htpin hkpin
  constructor
  · rintro ⟨version', -, ht, hk⟩
    have hlt := lastPin_lt version'
    omega
  · rintro ⟨ht, hk⟩
    rw [Nat.mod_eq_of_lt ht] at htpin ⊢
    rw [Nat.mod_eq_of_lt hk] at hkpin ⊢
    exact ⟨version, rfl, htpin, hkpin⟩

/-- A device that answers as a PC does: LAPIC 0 is present and enabled, and the I/O APIC has 24
pins. -/
def pcDevice : Device := fun _ reg =>
  if reg.offset = lapicId then 0
  else if reg.offset = lapicVersion then 0x50014
  else if reg.offset = lapicSvr then 0x1ff
  else 0x170011

/-- One I/O APIC, and an override of the timer's IRQ. -/
def timerInfo (gsi : UInt32) : ApicInfo :=
  { ApicInfo.start 0xfee00000 with
    ioapicCount := 1
    ioapicAddrs := (Vector.replicate maxIoapics 0).set 0 0xfec00000
    overrideCount := 1
    overrides := (Vector.replicate maxOverrides ⟨0, 0, 0⟩).set 0 ⟨0, gsi, 0⟩ }

theorem init_routes_iff_pcDevice : ∃ log, init (timerInfo 2) 0x8000000000 pcDevice [] =
    some (true, log) ∧ Routed (ofLog 0x80fec00000 log).accesses 0 2 1 := by
  have hgo : ((init (timerInfo 2) 0x8000000000 pcDevice []).any fun r => r.1) = true := by
    decide +kernel
  rw [Option.any_eq_true] at hgo
  obtain ⟨⟨ok, log⟩, hinit, rfl⟩ := hgo
  exact ⟨log, hinit, (init_routes_iff hinit).mpr (by decide +kernel)⟩

/-- **The timer on a wrong pin**: with an override of IRQ 0 to GSI 258, which no pin of the I/O APIC
has, `init` returns true and has programmed pin 2. -/
theorem init_misroutes : ∃ log, init (timerInfo 258) 0x8000000000 pcDevice [] = some (true, log) ∧
    (irqGsi (timerInfo 258) 0).toNat = 258 ∧
    (ofLog 0x80fec00000 log).accesses = [.read 1 0x170011, .write 0x14 32, .write 0x15 0,
      .write 0x12 33, .write 0x13 0] := by
  have hgo : ((init (timerInfo 258) 0x8000000000 pcDevice []).any fun r => r.1 &&
      ((ofLog 0x80fec00000 r.2).accesses == [.read 1 0x170011, .write 0x14 32, .write 0x15 0,
        .write 0x12 33, .write 0x13 0])) = true := by decide +kernel
  simp only [Option.any_eq_true, Bool.and_eq_true, beq_iff_eq] at hgo
  obtain ⟨⟨ok, log⟩, hinit, rfl, hlog⟩ := hgo
  exact ⟨log, hinit, by decide +kernel, hlog⟩

end YontiOs.Apic
