import YontiOs.Apic.Routing
import YontiOs.Machinery.Run

/-!
# Apic/Redirection — the driver's calls on the redirection table

An I/O APIC keeps its registers behind a selector and a window, and its redirection table in pairs
of them.  `chip` is one that remembers what is written.  Against it `set_irq` and `mask_irq` are two
operations on a table of pins: each changes the entry of its pin and nothing else, in whatever order
they are called (`redirection_refines`).
-/

namespace YontiOs.Apic

open MmioM IoApicView

def redirMasked : UInt32 := (1 : UInt32) <<< 16

namespace IoApic

def read (ioapic : IoApic) (index : UInt8) : MmioM UInt32 := readReg ioapic.base index

def write (ioapic : IoApic) (index : UInt8) (value : UInt32) : MmioM Unit :=
  writeReg ioapic.base index value

/-- `mask_irq(irq)`. -/
def maskIrq (ioapic : IoApic) (irq : UInt8) : MmioM Unit := do
  assert (irq ≤ ioapic.maxRedirs)
  let doubled ← checked (Word.byte (irq.toNat * 2))
  let idx ← checked (Word.byte (ioredtblBase.toNat + doubled.toNat))
  let lo ← ioapic.read idx
  ioapic.write idx (lo ||| redirMasked)

end IoApic

/-! ## A device with registers -/

/-- The registers after one access. -/
def RegAccess.applyTo (regs : ℕ → UInt32) : RegAccess → ℕ → UInt32
  | .read _ _ => regs
  | .write index value => Function.update regs index value

/-- The registers of the I/O APIC at a base address, after the accesses of a log. -/
def registers (base : ℕ) (regs : ℕ → UInt32) (log : List Access) : ℕ → UInt32 :=
  (ofLog base log).accesses.foldl RegAccess.applyTo regs

/-- An I/O APIC that answers with the register selected. -/
def chip (base : ℕ) (regs : ℕ → UInt32) : Device := fun log reg =>
  if reg = ⟨base, iowin⟩ then registers base regs log (ofLog base log).selector.toNat else 0

variable {base : ℕ} {regs : ℕ → UInt32} {log log' : List Access} {index irq vector : UInt8}
  {value : UInt32} {ioapic : IoApic}

/-- The window is at the register selected. -/
theorem ofLog_select : ofLog base (log ++ [.write ⟨base, ioregsel⟩ index.toUInt32]) =
    ⟨index.toUInt32, (ofLog base log).accesses⟩ := by
  rw [ofLog_append]
  exact if_pos rfl

/-- **A register is read** as it was last written. -/
theorem readReg_chip (base : ℕ) (regs : ℕ → UInt32) (log : List Access) (index : UInt8) :
    ∃ log', IoApic.readReg base index (chip base regs) log =
      some (registers base regs log index.toNat, log') ∧
    registers base regs log' = registers base regs log := by
  have hanswer : chip base regs (log ++ [.write ⟨base, ioregsel⟩ index.toUInt32]) ⟨base, iowin⟩ =
      registers base regs log index.toNat := by
    rw [chip, if_pos rfl, registers, ofLog_select, UInt8.toNat_toUInt32]
    rfl
  have hrun : IoApic.readReg base index (chip base regs) log = some
      (chip base regs (log ++ [.write ⟨base, ioregsel⟩ index.toUInt32]) ⟨base, iowin⟩, _) := rfl
  refine ⟨_, hrun.trans (by rw [hanswer]), ?_⟩
  rw [registers, ← hanswer, IoApic.readReg_spec hrun, List.foldl_append]
  rfl

/-- **A register is written**, and no other. -/
theorem writeReg_chip (base : ℕ) (regs : ℕ → UInt32) (log : List Access) (index : UInt8)
    (value : UInt32) : ∃ log', IoApic.writeReg base index value (chip base regs) log =
      some ((), log') ∧
    registers base regs log' = Function.update (registers base regs log) index.toNat value := by
  have hrun : IoApic.writeReg base index value (chip base regs) log = some ((), _) := rfl
  refine ⟨_, hrun, ?_⟩
  rw [registers, IoApic.writeReg_spec hrun, List.foldl_append]
  rfl

/-! ## The table -/

/-- The entry of a pin, its low and its high word. -/
def tableOf (regs : ℕ → UInt32) (pin : ℕ) : UInt32 × UInt32 :=
  (regs (0x10 + 2 * pin), regs (0x10 + 2 * pin + 1))

/-- A call of the driver. -/
inductive TableOp
  | setIrq (irq vector : UInt8)
  | maskIrq (irq : UInt8)
deriving DecidableEq, Repr

namespace TableOp

/-- The pin a call is about. -/
def pin : TableOp → UInt8
  | .setIrq irq _ => irq
  | .maskIrq irq => irq

/-- The call, against a device. -/
def run (ioapic : IoApic) : TableOp → MmioM Unit
  | .setIrq irq vector => ioapic.setIrq irq vector
  | .maskIrq irq => ioapic.maskIrq irq

/-- What the call is for. -/
def entry : TableOp → UInt32 × UInt32 → UInt32 × UInt32
  | .setIrq _ vector, _ => (vector.toUInt32, 0)
  | .maskIrq _, (lo, hi) => (lo ||| redirMasked, hi)

/-- The call as an operation on the table. -/
def exec (table : ℕ → UInt32 × UInt32) (op : TableOp) : ℕ → UInt32 × UInt32 :=
  Function.update table op.pin.toNat (op.entry (table op.pin.toNat))

/-- The pins that have an entry whose registers have an index, and the vectors that are not
exceptions. -/
def Fits (ioapic : IoApic) (op : TableOp) : Prop :=
  op.pin ≤ ioapic.maxRedirs ∧ op.pin.toNat < 120 ∧
    ∀ irq vector, op = .setIrq irq vector → 32 ≤ vector

instance (ioapic : IoApic) : ∀ op : TableOp, Decidable (op.Fits ioapic)
  | .setIrq irq vector => decidable_of_iff
      (irq ≤ ioapic.maxRedirs ∧ irq.toNat < 120 ∧ 32 ≤ vector)
      ⟨fun h => ⟨h.1, h.2.1, fun _ _ heq => (TableOp.setIrq.inj heq).2 ▸ h.2.2⟩,
        fun h => ⟨h.1, h.2.1, h.2.2 _ _ rfl⟩⟩
  | .maskIrq irq => decidable_of_iff (irq ≤ ioapic.maxRedirs ∧ irq.toNat < 120)
      ⟨fun h => ⟨h.1, h.2, fun _ _ heq => by cases heq⟩, fun h => ⟨h.1, h.2.1⟩⟩

end TableOp

/-- The registers of an entry are its own. -/
theorem tableOf_update {regs : ℕ → UInt32} {n : ℕ} {lo hi : UInt32} :
    tableOf (Function.update (Function.update regs (0x10 + 2 * n) lo) (0x10 + 2 * n + 1) hi) =
      Function.update (tableOf regs) n (lo, hi) := by
  funext pin
  by_cases hpin : pin = n
  · subst hpin
    simp [tableOf]
  · have h1 : 0x10 + 2 * pin ≠ 0x10 + 2 * n := by omega
    have h2 : 0x10 + 2 * pin ≠ 0x10 + 2 * n + 1 := by omega
    have h3 : 0x10 + 2 * pin + 1 ≠ 0x10 + 2 * n := by omega
    have h4 : 0x10 + 2 * pin + 1 ≠ 0x10 + 2 * n + 1 := by omega
    simp only [tableOf, Function.update_of_ne hpin, Function.update_of_ne h1,
      Function.update_of_ne h2, Function.update_of_ne h3, Function.update_of_ne h4]

theorem tableOf_update_low {regs : ℕ → UInt32} {n : ℕ} {lo : UInt32} :
    tableOf (Function.update regs (0x10 + 2 * n) lo) =
      Function.update (tableOf regs) n (lo, regs (0x10 + 2 * n + 1)) := by
  rw [← tableOf_update]
  congr 1
  rw [eq_comm, Function.update_eq_self_iff]
  exact (Function.update_of_ne (by omega) _ _).symm

/-- The index of a pin's low word, where it is a `u8`. -/
theorem index_of_lt (h : irq.toNat < 120) : ∃ doubled idx next,
    Word.byte (irq.toNat * 2) = some doubled ∧
    Word.byte (ioredtblBase.toNat + doubled.toNat) = some idx ∧
    Word.byte (idx.toNat + 1) = some next ∧ idx.toNat = 0x10 + 2 * irq.toNat ∧
    next.toNat = 0x10 + 2 * irq.toNat + 1 := by
  have hd : Word.byte (irq.toNat * 2) = some (UInt8.ofNat (irq.toNat * 2)) := if_pos (by omega)
  have hd' := Word.byte_eq_some hd
  have hbase : ioredtblBase.toNat = 0x10 := rfl
  have hi : Word.byte (ioredtblBase.toNat + (UInt8.ofNat (irq.toNat * 2)).toNat) = some _ :=
    if_pos (by omega)
  have hi' := Word.byte_eq_some hi
  have hn : Word.byte ((UInt8.ofNat (ioredtblBase.toNat +
      (UInt8.ofNat (irq.toNat * 2)).toNat)).toNat + 1) = some _ := if_pos (by omega)
  have hn' := Word.byte_eq_some hn
  exact ⟨_, _, _, hd, hi, hn, by omega, by omega⟩

/-- The index is no `u8` for the pins behind. -/
theorem lt_of_index {doubled idx : UInt8} (hd : Word.byte (irq.toNat * 2) = some doubled)
    (hi : Word.byte (ioredtblBase.toNat + doubled.toNat) = some idx) : irq.toNat < 120 := by
  have hd' := Word.byte_eq_some hd
  have hi' := Word.byte_eq_some hi
  have hlt := idx.toNat_lt
  have hbase : ioredtblBase.toNat = 0x10 := rfl
  omega

namespace TableOp

variable {op : TableOp}

/-- **A call changes the entry of its pin.** -/
theorem run_chip (h : op.Fits ioapic) (regs : ℕ → UInt32) (log : List Access) :
    ∃ log', op.run ioapic (chip ioapic.base regs) log = some ((), log') ∧
      tableOf (registers ioapic.base regs log') =
        op.exec (tableOf (registers ioapic.base regs log)) ∧
      ∀ i < 0x10, registers ioapic.base regs log' i = registers ioapic.base regs log i := by
  obtain ⟨hpin, hlt, hvector⟩ := h
  obtain ⟨doubled, idx, next, hd, hi, hn, hidx, hnext⟩ := index_of_lt hlt
  cases op with
  | setIrq irq vector =>
    obtain ⟨log₁, hlo, hregs₁⟩ :=
      writeReg_chip ioapic.base regs log idx vector.toUInt32
    obtain ⟨log₂, hhi, hregs₂⟩ := writeReg_chip ioapic.base regs log₁ next 0
    refine ⟨log₂, ?_, ?_, fun i hi' => ?_⟩
    · simp only [run, IoApic.setIrq, assert_bind, checked_bind]
      exact ⟨hpin, hvector _ _ rfl, doubled, hd, idx, hi, bind_eq_some.mpr ⟨(), log₁, by
        rw [redirFlags, UInt32.or_zero]
        exact hlo, checked_bind.mpr ⟨next, hn, hhi⟩⟩⟩
    · rw [hregs₂, hregs₁, hidx, hnext]
      exact tableOf_update
    · rw [hregs₂, hregs₁, Function.update_of_ne (by omega), Function.update_of_ne (by omega)]
  | maskIrq irq =>
    obtain ⟨log₁, hread, hregs₁⟩ := readReg_chip ioapic.base regs log idx
    obtain ⟨log₂, hwrite, hregs₂⟩ := writeReg_chip ioapic.base regs log₁ idx
      (registers ioapic.base regs log idx.toNat ||| redirMasked)
    rw [hregs₁, hidx] at hregs₂
    refine ⟨log₂, ?_, ?_, fun i hi' => ?_⟩
    · simp only [run, IoApic.maskIrq, assert_bind, checked_bind]
      exact ⟨hpin, doubled, hd, idx, hi, bind_eq_some.mpr ⟨_, log₁, hread, hwrite⟩⟩
    · rw [hregs₂]
      exact tableOf_update_low
    · rw [hregs₂, Function.update_of_ne (by omega)]

/-- A call that returns is one that fits. -/
theorem fits_of_run {dev : Device} {u : Unit} (h : op.run ioapic dev log = some (u, log')) :
    op.Fits ioapic := by
  cases op with
  | setIrq irq vector =>
    simp only [run, IoApic.setIrq, assert_bind, checked_bind] at h
    obtain ⟨hpin, hvector, doubled, hd, idx, hi, -⟩ := h
    exact ⟨hpin, lt_of_index hd hi, fun _ _ heq => (TableOp.setIrq.inj heq).2 ▸ hvector⟩
  | maskIrq irq =>
    simp only [run, IoApic.maskIrq, assert_bind, checked_bind] at h
    obtain ⟨hpin, doubled, hd, idx, hi, -⟩ := h
    exact ⟨hpin, lt_of_index hd hi, fun _ _ heq => by cases heq⟩

end TableOp

/-- The calls of a driver, one after the other. -/
def tableStep (ioapic : IoApic) (regs : ℕ → UInt32) (log : List Access) (op : TableOp) :
    Option (List Access) :=
  (op.run ioapic (chip ioapic.base regs) log).map Prod.snd

theorem tableStep_isSome {op : TableOp} :
    (tableStep ioapic regs log op).isSome ↔ op.Fits ioapic := by
  rw [tableStep, Option.isSome_map]
  constructor
  · intro h
    obtain ⟨⟨u, log'⟩, hrun⟩ := Option.isSome_iff_exists.mp h
    exact TableOp.fits_of_run hrun
  · intro h
    obtain ⟨log', hrun, -⟩ := op.run_chip h regs log
    rw [hrun]
    rfl

/-- Along the calls, the registers are what the operations make of the table. -/
theorem registers_of_run {ops : List TableOp} {log₀ : List Access}
    (hrun : Run (tableStep ioapic regs) (fun _ _ => True) log₀ ops log) :
    tableOf (registers ioapic.base regs log) =
        ops.foldl TableOp.exec (tableOf (registers ioapic.base regs log₀)) ∧
      ∀ i < 0x10, registers ioapic.base regs log i = registers ioapic.base regs log₀ i := by
  induction hrun with
  | nil => exact ⟨rfl, fun _ _ => rfl⟩
  | @cons log₀ _ _ op _ _ hstep _ ih =>
    have hfits := tableStep_isSome.mp (Option.isSome_iff_exists.mpr ⟨_, hstep⟩)
    obtain ⟨log', hop, htable, hlow⟩ := op.run_chip hfits regs log₀
    rw [tableStep, hop] at hstep
    obtain rfl := Option.some.inj hstep
    rw [List.foldl_cons, ← htable]
    exact ⟨ih.1, fun i hi => (ih.2 i hi).trans (hlow i hi)⟩

/-- **The driver's calls are the operations on the table**, in every sequence of them: the entries
are what the operations make of them, the registers before the table are as they were, and a call
panics exactly if its pin has no entry, or one whose registers have no index in a `u8`, or if its
vector is one of the exceptions. -/
theorem redirection_refines {ops : List TableOp}
    (hrun : Run (tableStep ioapic regs) (fun _ _ => True) [] ops log) :
    tableOf (registers ioapic.base regs log) = ops.foldl TableOp.exec (tableOf regs) ∧
      (∀ i < 0x10, registers ioapic.base regs log i = regs i) ∧
      ∀ op : TableOp, (tableStep ioapic regs log op).isSome ↔ op.Fits ioapic := by
  obtain ⟨htable, hlow⟩ := registers_of_run hrun
  exact ⟨htable, hlow, fun op => tableStep_isSome⟩

/-- Two pins are set, the first is masked, and the other is set again. -/
def maskFirst : List TableOp := [.setIrq 2 32, .setIrq 1 33, .maskIrq 2, .setIrq 1 34]

/-- The entries of pins 1 and 2 of an I/O APIC with 24 pins, all masked at first. -/
theorem redirection_refines_maskFirst : ∃ log,
    Run (tableStep ⟨0x1000, 0, 23⟩ fun _ => redirMasked) (fun _ _ => True) [] maskFirst log ∧
      tableOf (registers 0x1000 (fun _ => redirMasked) log) 1 = (34, 0) ∧
      tableOf (registers 0x1000 (fun _ => redirMasked) log) 2 = (0x10020, 0) ∧
      (tableStep ⟨0x1000, 0, 23⟩ (fun _ => redirMasked) log (.maskIrq 24)).isSome = false := by
  have hgo : (runFrom (tableStep ⟨0x1000, 0, 23⟩ fun _ => redirMasked) (fun _ _ => True) []
      maskFirst).isSome = true := by decide +kernel
  obtain ⟨log, hlog⟩ := Option.isSome_iff_exists.mp hgo
  have hrun := Run.of_runFrom hlog
  obtain ⟨htable, -, hcalls⟩ := redirection_refines hrun
  refine ⟨log, hrun, ?_, ?_, ?_⟩
  · rw [htable]
    decide +kernel
  · rw [htable]
    decide +kernel
  · rw [Bool.eq_false_iff, Ne, hcalls]
    decide

end YontiOs.Apic
