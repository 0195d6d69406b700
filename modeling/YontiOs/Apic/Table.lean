import YontiOs.Apic.Madt
import YontiOs.Machinery.Filled

/-!
# Apic/Table — the parser inverts the encoding of the MADT

A `Table` is what firmware puts in a MADT: the header's fields and a list of entries.  On its bytes
the loop of `parse_madt` steps from entry to entry (`parseEntries_eq`), so the parser keeps the
first I/O APICs and the first overrides of the list (`Table.inverts_apicInfo`).
-/

namespace YontiOs.Apic

open LoadM Mem

/-- An entry of the MADT: an I/O APIC, an interrupt source override, or a type that is skipped. -/
inductive Entry
  | ioApic (id reserved : UInt8) (address gsiBase : UInt32)
  | sourceOverride (bus : UInt8) (ov : IrqOverride)
  | other (type : UInt8) (body : List UInt8) (htype : type ≠ 1 ∧ type ≠ 2)
      (hbody : body.length ≤ 253)

namespace Entry

def type : Entry → UInt8
  | ioApic .. => 1
  | sourceOverride .. => 2
  | other type .. => type

/-- The entry after its type and its length. -/
def body : Entry → List UInt8
  | ioApic id reserved address gsiBase =>
    id :: reserved :: (bytesLE 4 address.toNat ++ bytesLE 4 gsiBase.toNat)
  | sourceOverride bus ov =>
    bus :: ov.source :: (bytesLE 4 ov.gsi.toNat ++ bytesLE 2 ov.flags.toNat)
  | other _ body .. => body

def bytes (e : Entry) : List UInt8 := e.type :: UInt8.ofNat (e.body.length + 2) :: e.body

theorem length_body_le (e : Entry) : e.body.length ≤ 253 := by
  cases e with
  | ioApic | sourceOverride => simp [body]
  | other type body htype hbody => exact hbody

theorem length_bytes (e : Entry) : e.bytes.length = e.body.length + 2 := rfl

theorem toNat_length (e : Entry) : (UInt8.ofNat (e.body.length + 2)).toNat = e.bytes.length := by
  have := e.length_body_le
  rw [UInt8.toNat_ofNat', length_bytes]
  exact Nat.mod_eq_of_lt (by omega)

end Entry

/-- The I/O APICs of a list of entries: address and base. -/
def ioApics (es : List Entry) : List (UInt64 × UInt32) :=
  es.filterMap fun
    | .ioApic _ _ address gsiBase => some (address.toUInt64, gsiBase)
    | _ => none

/-- The overrides of a list of entries. -/
def sourceOverrides (es : List Entry) : List IrqOverride :=
  es.filterMap fun
    | .sourceOverride _ ov => some ov
    | _ => none

/-- A MADT: the fields of its header but for the length, and its entries. -/
structure Table where
  signature : Vector UInt8 4
  fields : Vector UInt8 28
  lapicAddress : UInt32
  flags : UInt32
  entries : List Entry
  size_lt : 44 + (entries.flatMap Entry.bytes).length < 2 ^ 32

namespace Table

def size (t : Table) : ℕ := 44 + (t.entries.flatMap Entry.bytes).length

def bytes (t : Table) : List UInt8 :=
  t.signature.toList ++ (bytesLE 4 t.size ++ (t.fields.toList ++
    (bytesLE 4 t.lapicAddress.toNat ++ (bytesLE 4 t.flags.toNat ++ t.entries.flatMap Entry.bytes))))

end Table

variable {m : Mem} {info : ApicInfo} {a len : ℕ} {e : Entry} {es : List Entry}

/-! ## One entry -/

/-- What an entry adds to the result. -/
def record (info : ApicInfo) : Entry → ApicInfo
  | .ioApic _ _ address gsiBase =>
    if h : info.ioapicCount < maxIoapics then
      { info with
        ioapicAddrs := info.ioapicAddrs.set info.ioapicCount address.toUInt64 h
        ioapicGsiBases := info.ioapicGsiBases.set info.ioapicCount gsiBase h
        ioapicCount := info.ioapicCount + 1 }
    else info
  | .sourceOverride _ ov =>
    if h : info.overrideCount < maxOverrides then
      { info with
        overrides := info.overrides.set info.overrideCount ov h
        overrideCount := info.overrideCount + 1 }
    else info
  | .other .. => info

theorem value_parseEntry (h : m.Holds a e.bytes) :
    (parseEntry info a e.type).value m = record info e := by
  obtain ⟨-, -, hbody⟩ := h
  cases e with
  | ioApic id reserved address gsiBase =>
    obtain ⟨-, -, hwords⟩ := hbody
    rw [holds_append, length_bytesLE] at hwords
    rw [parseEntry, record]
    by_cases hcount : info.ioapicCount < maxIoapics
    · have haddr : (load32 (a + 4)).value m = address := value_load32 hwords.1
      have hbase : (load32 (a + 8)).value m = gsiBase := value_load32 hwords.2
      rw [dif_pos ⟨rfl, hcount⟩, dif_pos hcount, value_bind, value_bind, value_bind, haddr, hbase,
        value_pure]
    · rw [dif_neg fun h => hcount h.2, dif_neg fun h => absurd h.1
        (show ¬ (1 : UInt8) = 2 by decide), dif_neg hcount]
      rfl
  | sourceOverride bus ov =>
    obtain ⟨-, hsource, hwords⟩ := hbody
    rw [holds_append, length_bytesLE] at hwords
    rw [parseEntry, record, dif_neg fun h => absurd h.1 (show ¬ (2 : UInt8) = 1 by decide)]
    by_cases hcount : info.overrideCount < maxOverrides
    · have hsrc : (load8 (a + 3)).value m = ov.source := (value_load8 m _).trans hsource
      have hgsi : (load32 (a + 4)).value m = ov.gsi := value_load32 hwords.1
      have hflags : (load16 (a + 8)).value m = ov.flags := value_load16 hwords.2
      rw [dif_pos ⟨rfl, hcount⟩, dif_pos hcount, value_bind, value_bind, value_bind,
        value_bind, hsrc, hgsi, hflags, value_pure]
    · rw [dif_neg fun h => hcount h.2, dif_neg hcount]
      rfl
  | other type body htype hbody =>
    rw [parseEntry, dif_neg fun h => htype.1 h.1, dif_neg fun h => htype.2 h.1]
    rfl

/-! ## The loop -/

/-- **On encoded entries the loop records them one by one.** -/
theorem parseEntries_eq (h : m.Holds a (es.flatMap Entry.bytes))
    (hlen : len = a + (es.flatMap Entry.bytes).length) :
    (parseEntries len a info).value m = es.foldl record info := by
  induction es generalizing a info with
  | nil =>
    rw [parseEntries, dif_neg (by simp [hlen])]
    rfl
  | cons e es ih =>
    rw [List.flatMap_cons, holds_append] at h
    rw [List.flatMap_cons, List.length_append] at hlen
    have hbytes := e.length_bytes
    obtain ⟨hentry, hrest⟩ := h
    have hnat : (m (a + 1)).toNat = e.bytes.length := by rw [hentry.2.1, e.toNat_length]
    rw [parseEntries, dif_pos (by omega)]
    simp only [value_bind, value_load8, hnat]
    rw [dif_neg (by omega), if_neg (by omega)]
    simp only [value_bind]
    rw [hentry.1, value_parseEntry hentry, ih hrest (by omega)]
    rfl

/-! ## What is recorded -/

/-- The result has the first I/O APICs and overrides of the entries. -/
structure Recorded (info : ApicInfo) (es : List Entry) : Prop where
  addrs : Filled info.ioapicAddrs info.ioapicCount ((ioApics es).map Prod.fst)
  gsiBases : Filled info.ioapicGsiBases info.ioapicCount ((ioApics es).map Prod.snd)
  overrides : Filled info.overrides info.overrideCount (sourceOverrides es)

namespace Recorded

/-- **One entry more.** -/
theorem record (h : Recorded info es) (e : Entry) : Recorded (record info e) (es ++ [e]) := by
  cases e with
  | ioApic id reserved address gsiBase =>
    have hovs : sourceOverrides (es ++ [.ioApic id reserved address gsiBase]) =
        sourceOverrides es := by
      simp [sourceOverrides]
    have happ : ioApics (es ++ [.ioApic id reserved address gsiBase]) =
        ioApics es ++ [(address.toUInt64, gsiBase)] := by
      simp [ioApics]
    rw [Apic.record]
    split_ifs with hcount
    · exact ⟨by rw [happ, List.map_append]; exact h.addrs.push hcount,
        by rw [happ, List.map_append]; exact h.gsiBases.push hcount, hovs ▸ h.overrides⟩
    · exact ⟨by rw [happ, List.map_append]; exact h.addrs.drop hcount,
        by rw [happ, List.map_append]; exact h.gsiBases.drop hcount, hovs ▸ h.overrides⟩
  | sourceOverride bus ov =>
    have happ : ioApics (es ++ [.sourceOverride bus ov]) = ioApics es := by simp [ioApics]
    have hovs : sourceOverrides (es ++ [.sourceOverride bus ov]) = sourceOverrides es ++ [ov] := by
      simp [sourceOverrides]
    rw [Apic.record]
    split_ifs with hcount
    · exact ⟨happ ▸ h.addrs, happ ▸ h.gsiBases, hovs ▸ h.overrides.push hcount⟩
    · exact ⟨happ ▸ h.addrs, happ ▸ h.gsiBases, hovs ▸ h.overrides.drop hcount⟩
  | other type body htype hbody =>
    have happ : ioApics (es ++ [.other type body htype hbody]) = ioApics es := by simp [ioApics]
    have hovs : sourceOverrides (es ++ [.other type body htype hbody]) = sourceOverrides es := by
      simp [sourceOverrides]
    exact ⟨happ ▸ h.addrs, happ ▸ h.gsiBases, hovs ▸ h.overrides⟩

/-- **All entries**, from nothing recorded. -/
theorem foldl (hnil : Recorded info []) (es : List Entry) :
    Recorded (es.foldl Apic.record info) es := by
  induction es using List.reverseRecOn with
  | nil => exact hnil
  | append_singleton es e ih =>
    rw [List.foldl_append]
    exact ih.record e

end Recorded

theorem lapicPhysBase_foldl (info : ApicInfo) (es : List Entry) :
    (es.foldl record info).lapicPhysBase = info.lapicPhysBase := by
  induction es generalizing info with
  | nil => rfl
  | cons e es ih =>
    rw [List.foldl_cons, ih]
    cases e with
    | ioApic | sourceOverride =>
      rw [record]
      split_ifs <;> rfl
    | other => rfl

/-! ## The interrupt map -/

/-- The GSI that a list of overrides gives a legacy IRQ: that of the last one for it, or its own
number. -/
def gsiOf (ovs : List IrqOverride) (irq : ℕ) : UInt32 :=
  ((ovs.filter fun ov => ov.source.toNat = irq).getLast?.map IrqOverride.gsi).getD
    (UInt32.ofNat irq)

theorem gsiOf_append_singleton (ovs : List IrqOverride) (ov : IrqOverride) (irq : ℕ) :
    gsiOf (ovs ++ [ov]) irq = if ov.source.toNat = irq then ov.gsi else gsiOf ovs irq := by
  rw [gsiOf, List.filter_append]
  split_ifs with hirq
  · simp [hirq]
  · simp [hirq, gsiOf]

theorem getElem_applyOverride (map : Vector UInt32 16) (ov : IrqOverride) {irq : ℕ}
    (hirq : irq < 16) :
    (applyOverride map ov)[irq] = if ov.source.toNat = irq then ov.gsi else map[irq] := by
  rw [applyOverride]
  by_cases hsource : ov.source.toNat < 16
  · rw [dif_pos hsource, Vector.getElem_set]
  · rw [dif_neg hsource, if_neg (by omega)]

/-- **The map sends an IRQ to its last override.** -/
theorem buildIrqGsiMap_eq (overrides : List IrqOverride) (count : ℕ) {irq : ℕ} (hirq : irq < 16) :
    (buildIrqGsiMap overrides count)[irq] = gsiOf (overrides.take count) irq := by
  rw [buildIrqGsiMap]
  generalize overrides.take count = ovs
  induction ovs using List.reverseRecOn with
  | nil => simp [gsiOf]
  | append_singleton ovs ov ih =>
    rw [gsiOf_append_singleton, ← ih, ← getElem_applyOverride _ ov hirq]
    simp only [List.foldl_append, List.foldl_cons, List.foldl_nil]

/-! ## The parser -/

/-- The parts of an encoded table where `parse_madt` looks. -/
theorem Table.holds_bytes {t : Table} (h : m.Holds 0 t.bytes) :
    m.Holds 4 (bytesLE 4 t.size) ∧ m.Holds 36 (bytesLE 4 t.lapicAddress.toNat) ∧
      m.Holds 44 (t.entries.flatMap Entry.bytes) := by
  simp only [Table.bytes, holds_append, Vector.length_toList, length_bytesLE] at h
  exact ⟨h.2.1, h.2.2.2.1, h.2.2.2.2.2⟩

/-- What a table says: its first I/O APICs and overrides. -/
def Table.apicInfo (t : Table) : ApicInfo := t.entries.foldl record (.start t.lapicAddress.toUInt64)

/-- On the bytes of a table the parser returns what it says. -/
theorem value_parseMadt {t : Table} (h : m.Holds 0 t.bytes) : parseMadt.value m = t.apicInfo := by
  obtain ⟨hlength, hlapic, hentries⟩ := t.holds_bytes h
  have hsize : (loadPacked 4 4).value m = t.size :=
    (readLE_of_holds hlength).trans (Nat.mod_eq_of_lt t.size_lt)
  rw [parseMadt, value_bind, hsize, parseTable, value_bind, value_load32 hlapic]
  exact parseEntries_eq hentries rfl

/-- **The parser is to invert the encoding**: the address of the LAPIC, the first I/O APICs and the
first overrides in the order of the table, and a map that sends a legacy IRQ to its last override
among these, or to itself. -/
structure Inverts (t : Table) (info : ApicInfo) : Prop where
  lapicPhysBase : info.lapicPhysBase = t.lapicAddress.toUInt64
  ioapicCount : info.ioapicCount = min 4 (ioApics t.entries).length
  ioapicAddrs : info.ioapicAddrs.toList.take info.ioapicCount =
    ((ioApics t.entries).map Prod.fst).take 4
  ioapicGsiBases : info.ioapicGsiBases.toList.take info.ioapicCount =
    ((ioApics t.entries).map Prod.snd).take 4
  overrideCount : info.overrideCount = min 16 (sourceOverrides t.entries).length
  overrides : info.overrides.toList.take info.overrideCount = (sourceOverrides t.entries).take 16
  irqGsiMap : ∀ irq, (hirq : irq < 16) →
    (buildIrqGsiMap info.overrides.toList info.overrideCount)[irq] =
      gsiOf ((sourceOverrides t.entries).take 16) irq

theorem Table.recorded_apicInfo (t : Table) : Recorded t.apicInfo t.entries :=
  .foldl ⟨.nil _, .nil _, .nil _⟩ t.entries

theorem Table.inverts_apicInfo (t : Table) : Inverts t t.apicInfo where
  lapicPhysBase := lapicPhysBase_foldl _ _
  ioapicCount := by
    rw [t.recorded_apicInfo.addrs.count_eq, List.length_map]
    rfl
  ioapicAddrs := t.recorded_apicInfo.addrs.take_eq
  ioapicGsiBases := t.recorded_apicInfo.gsiBases.take_eq
  overrideCount := t.recorded_apicInfo.overrides.count_eq
  overrides := t.recorded_apicInfo.overrides.take_eq
  irqGsiMap irq hirq := by
    rw [buildIrqGsiMap_eq _ _ hirq, t.recorded_apicInfo.overrides.take_eq]
    rfl

/-- A table with a local APIC, an I/O APIC, and the timer's override twice. -/
def pcTable : Table where
  signature := #v[0x41, 0x50, 0x49, 0x43]
  fields := Vector.replicate 28 0
  lapicAddress := 0xfee00000
  flags := 1
  entries := [.other 0 [0, 0, 1, 0, 0, 0] (by decide) (by decide), .ioApic 1 0 0xfec00000 0,
    .sourceOverride 0 ⟨0, 20, 0⟩, .sourceOverride 0 ⟨0, 2, 0⟩]
  size_lt := by decide

end YontiOs.Apic
