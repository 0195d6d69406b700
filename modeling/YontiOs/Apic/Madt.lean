import YontiOs.Machinery.Loads
import YontiOs.Machinery.Word

/-!
# Apic/Madt — reading the MADT

`parse_madt` and `build_irq_gsi_map` of `apic/mod.rs`.  The table is read through raw pointers, so
the parser is a program of loads.  `parseMadt` has them at offsets from the table's start, and
`parseMadtAt` at a table somewhere in memory.
-/

namespace YontiOs.Apic

open LoadM

def maxIoapics : ℕ := 4
def maxOverrides : ℕ := 16

structure IrqOverride where
  source : UInt8
  gsi : UInt32
  flags : UInt16
  deriving DecidableEq, Repr

structure ApicInfo where
  lapicPhysBase : UInt64
  ioapicCount : ℕ
  ioapicAddrs : Vector UInt64 maxIoapics
  ioapicGsiBases : Vector UInt32 maxIoapics
  overrideCount : ℕ
  overrides : Vector IrqOverride maxOverrides

/-- The result before the first entry. -/
def ApicInfo.start (lapicPhysBase : UInt64) : ApicInfo where
  lapicPhysBase := lapicPhysBase
  ioapicCount := 0
  ioapicAddrs := Vector.replicate maxIoapics 0
  ioapicGsiBases := Vector.replicate maxIoapics 0
  overrideCount := 0
  overrides := Vector.replicate maxOverrides ⟨0, 0, 0⟩

/-- The `match` on the type of an entry. -/
def parseEntry (info : ApicInfo) (offset : ℕ) (entryType : UInt8) : LoadM ApicInfo :=
  if h : entryType = 1 ∧ info.ioapicCount < maxIoapics then do
    let _ioapicId ← load8 (offset + 2)
    let ioapicAddr ← load32 (offset + 4)
    let gsiBase ← load32 (offset + 8)
    return { info with
      ioapicAddrs := info.ioapicAddrs.set info.ioapicCount ioapicAddr.toUInt64 h.2
      ioapicGsiBases := info.ioapicGsiBases.set info.ioapicCount gsiBase h.2
      ioapicCount := info.ioapicCount + 1 }
  else if h : entryType = 2 ∧ info.overrideCount < maxOverrides then do
    let _bus ← load8 (offset + 2)
    let source ← load8 (offset + 3)
    let gsi ← load32 (offset + 4)
    let flags ← load16 (offset + 8)
    return { info with
      overrides := info.overrides.set info.overrideCount ⟨source, gsi, flags⟩ h.2
      overrideCount := info.overrideCount + 1 }
  else return info

/-- The loop of `parse_madt` in a table of `len` bytes. -/
def parseEntries (len offset : ℕ) (info : ApicInfo) : LoadM ApicInfo :=
  if _hin : offset + 2 ≤ len then do
    let entryType ← load8 offset
    let entryLen ← load8 (offset + 1)
    if _hlen : entryLen.toNat < 2 then return info
    else if offset + entryLen.toNat > len then return info
    else do
      let info ← parseEntry info offset entryType
      parseEntries len (offset + entryLen.toNat) info
  else return info
termination_by len - offset

/-- `parse_madt` once it has the length of the table. -/
def parseTable (length : ℕ) : LoadM ApicInfo := do
  let lapicPhysBase ← load32 36
  parseEntries length 44 (.start lapicPhysBase.toUInt64)

def parseMadt : LoadM ApicInfo := do
  let length ← loadPacked 4 4
  parseTable length

/-- `parse_madt(madt_ptr)`.  Of the end of the table only the distance to its start is used, but the
end is computed first, and `none` is the panic when it is beyond the last address. -/
def parseMadtAt (madt : ℕ) : LoadM (Option ApicInfo) := do
  let length ← loadPacked (madt + 4) 4
  match Word.add madt length with
  | none => return none
  | some _ => return some (← (parseTable length).relocate madt)

/-- An override in the map from legacy IRQs to GSIs. -/
def applyOverride (irqToGsi : Vector UInt32 16) (ov : IrqOverride) : Vector UInt32 16 :=
  if h : ov.source.toNat < 16 then irqToGsi.set ov.source.toNat ov.gsi h else irqToGsi

def buildIrqGsiMap (overrides : List IrqOverride) (overrideCount : ℕ) : Vector UInt32 16 :=
  (overrides.take overrideCount).foldl applyOverride (Vector.ofFn fun i => UInt32.ofNat i)

end YontiOs.Apic
