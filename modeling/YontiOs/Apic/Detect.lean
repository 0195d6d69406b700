import YontiOs.Apic.Reads
import YontiOs.Apic.Rsdp

/-!
# Apic/Detect — from the root pointer to the APIC

`detect` follows the tables of the firmware: the RSDP names a table of tables, that one lists a MADT
among others, and `parse_madt` reads the MADT.  A `Firmware` is what is written there.  Where it is
aligned in memory, `detect` returns what the first MADT says, for a root pointer of either revision;
elsewhere a load stops it (`detect_inverts`).
-/

namespace YontiOs.Apic

open LoadM Mem

/-- `detect`, once it has found a MADT. -/
def detectAt (madt : ℕ) : LoadM (Option (Option ApicInfo)) := do
  match ← parseMadtAt madt with
  | none => return none
  | some info =>
    if info.lapicPhysBase = 0 then return none
    else if info.ioapicCount = 0 then return some none
    else return some (some info)

/-- `detect(rsdp_addr, phys_offset)`; the outer `none` is a panic. -/
def detect (rsdpAddr physOffset : ℕ) : LoadM (Option (Option ApicInfo)) :=
  if rsdpAddr ≠ 0 ∧ 0 < physOffset then do
    match ← parseRsdp rsdpAddr physOffset with
    | none => return none
    | some none => return some none
    | some (some madt) => detectAt madt
  else return none

/-! ## What firmware writes -/

/-- A root pointer: of the first revision, or with a second address. -/
inductive Rsdp
  | first (fields : Vector UInt8 7) (revision : UInt8) (rsdt : UInt32) (hrevision : revision < 2)
  | second (fields : Vector UInt8 7) (revision : UInt8) (rsdt length : UInt32) (xsdt : UInt64)
      (hrevision : 2 ≤ revision)

namespace Rsdp

def bytes : Rsdp → List UInt8
  | first fields revision rsdt _ =>
    rsdpSignature ++ (fields.toList ++ revision :: bytesLE 4 rsdt.toNat)
  | second fields revision rsdt length xsdt _ =>
    rsdpSignature ++ (fields.toList ++ revision :: (bytesLE 4 rsdt.toNat ++
      (bytesLE 4 length.toNat ++ bytesLE 8 xsdt.toNat)))

/-- The table of tables: its signature, the width of its entries and its address. -/
def root : Rsdp → List UInt8 × ℕ × ℕ
  | first _ _ rsdt _ => (rsdtSignature, 4, rsdt.toNat)
  | second _ _ rsdt _ xsdt _ =>
    if xsdt ≠ 0 then (xsdtSignature, 8, xsdt.toNat) else (rsdtSignature, 4, rsdt.toNat)

def width (r : Rsdp) : ℕ := r.root.2.1

def address (r : Rsdp) : ℕ := r.root.2.2

end Rsdp

/-- A listed table: a MADT, or one with another signature. -/
inductive Sdt
  | madt (t : Table) (hsignature : t.signature.toList = madtSignature)
  | other (signature : Vector UInt8 4) (hsignature : signature.toList ≠ madtSignature)

namespace Sdt

/-- Of another table only the signature is read. -/
def bytes : Sdt → List UInt8
  | madt t _ => t.bytes
  | other signature _ => signature.toList

def asMadt : Sdt → Option Table
  | madt t _ => some t
  | other .. => none

end Sdt

/-- The root pointer, the header of the table of tables, and the tables with their addresses. -/
structure Firmware where
  rsdp : Rsdp
  fields : Vector UInt8 28
  tables : List (ℕ × Sdt)
  addr_lt : ∀ t ∈ tables, t.1 < 256 ^ rsdp.width
  size_lt : 36 + tables.length * rsdp.width < 2 ^ 32

namespace Firmware

def rootBytes (fw : Firmware) : List UInt8 :=
  fw.rsdp.root.1 ++ (bytesLE 4 (36 + fw.tables.length * fw.rsdp.width) ++
    (fw.fields.toList ++ (fw.tables.map Prod.fst).flatMap (bytesLE fw.rsdp.width)))

/-- It is in memory, at physical addresses that the kernel reaches. -/
structure InMemory (fw : Firmware) (m : Mem) (rsdpPhys physOffset : ℕ) : Prop where
  rsdp : m.Holds (physOffset + rsdpPhys) fw.rsdp.bytes
  root : m.Holds (physOffset + fw.rsdp.address) fw.rootBytes
  tables : ∀ t ∈ fw.tables, m.Holds (physOffset + t.1) t.2.bytes
  rsdp_lt : physOffset + rsdpPhys < 2 ^ 64
  root_lt : physOffset + fw.rsdp.address < 2 ^ 64
  tables_lt : ∀ t ∈ fw.tables, physOffset + t.1 < 2 ^ 64

end Firmware

/-- The first MADT among the tables, with its address. -/
def Firmware.madt (fw : Firmware) : Option (ℕ × Table) :=
  fw.tables.findSome? fun t => t.2.asMadt.map (t.1, ·)

/-- **What the firmware says**: the first MADT counts.  One without a local APIC is refused with a
panic, and one without an I/O APIC is no APIC. -/
def Firmware.apic (fw : Firmware) : Option (Option ApicInfo) :=
  match fw.madt with
  | none => some none
  | some (_, t) =>
    if t.lapicAddress = 0 then none
    else if ioApics t.entries = [] then some none
    else some (some t.apicInfo)

/-- The plain loads of the kernel are aligned: the entries of the table of tables, and what is read
of the first MADT, whose end is an address. -/
structure Firmware.Aligned (fw : Firmware) (physOffset : ℕ) : Prop where
  root : fw.tables ≠ [] → fw.rsdp.width ∣ physOffset + fw.rsdp.address + sdtHeaderSize
  madt : ∀ addr t, fw.madt = some (addr, t) → physOffset + addr + t.size < 2 ^ 64 ∧
    4 ∣ physOffset + addr ∧ FieldsAligned t.entries

variable {m : Mem} {a rsdpPhys physOffset : ℕ} {t : Table} {fw : Firmware}

/-! ## The root pointer -/

theorem Rsdp.signature_of_holds {r : Rsdp} (h : m.Holds a r.bytes) :
    m.bytesAt a 8 = rsdpSignature := by
  cases r with
  | first => exact bytesAt_of_holds (holds_append.mp h).1
  | second => exact bytesAt_of_holds (holds_append.mp h).1

theorem readLE_one (m : Mem) (a : ℕ) : m.readLE a 1 = (m a).toNat := rfl

/-- **The kernel takes the table the root pointer names.** -/
theorem Rsdp.rootTable_of_holds {r : Rsdp} (h : m.Holds a r.bytes) : rootTable m a = r.root := by
  cases r with
  | first fields revision rsdt hrevision =>
    rw [bytes, holds_append, holds_append, Vector.length_toList] at h
    obtain ⟨-, -, hrev, hrsdt⟩ := h
    have hrev : m (a + 15) = revision := hrev
    have hrsdt : m.readLE (a + 16) 4 = rsdt.toNat % 256 ^ 4 := readLE_of_holds hrsdt
    have hlt : revision.toNat < 2 := UInt8.lt_iff_toNat_lt.mp hrevision
    rw [Nat.mod_eq_of_lt (show rsdt.toNat < 256 ^ 4 from rsdt.toNat_lt)] at hrsdt
    rw [rootTable, readLE_one, hrev, if_neg fun hxsdt => absurd hxsdt.1 (by omega), hrsdt, root]
  | second fields revision rsdt length xsdt hrevision =>
    rw [bytes, holds_append, holds_append, Vector.length_toList] at h
    obtain ⟨-, -, hrev, hwords⟩ := h
    rw [holds_append, holds_append, length_bytesLE, length_bytesLE] at hwords
    have hrev : m (a + 15) = revision := hrev
    have hrsdt : m.readLE (a + 16) 4 = rsdt.toNat % 256 ^ 4 := readLE_of_holds hwords.1
    have hxsdt : m.readLE (a + 24) 8 = xsdt.toNat % 256 ^ 8 := readLE_of_holds hwords.2.2
    have hle : 2 ≤ revision.toNat := UInt8.le_iff_toNat_le.mp hrevision
    rw [Nat.mod_eq_of_lt (show rsdt.toNat < 256 ^ 4 from rsdt.toNat_lt)] at hrsdt
    rw [Nat.mod_eq_of_lt (show xsdt.toNat < 256 ^ 8 from xsdt.toNat_lt)] at hxsdt
    have hzero : xsdt.toNat ≠ 0 ↔ xsdt ≠ 0 := not_congr (UInt64.toNat_inj (b := 0))
    rw [rootTable, readLE_one, hrev, hxsdt, hrsdt, root]
    simp only [hle, true_and, hzero]

theorem Rsdp.width_pos (r : Rsdp) : 0 < r.width := by
  cases r with
  | first => exact Nat.succ_pos 3
  | second =>
    rw [width, root]
    split_ifs
    · exact Nat.succ_pos 7
    · exact Nat.succ_pos 3

theorem Rsdp.length_signature (r : Rsdp) : r.root.1.length = 4 := by
  cases r with
  | first => rfl
  | second =>
    rw [root]
    split_ifs <;> rfl

/-! ## The table of tables -/

namespace Firmware.InMemory

/-- The parts of the table where the walk looks. -/
theorem root_parts (h : fw.InMemory m rsdpPhys physOffset) :
    m.Holds (physOffset + fw.rsdp.address) fw.rsdp.root.1 ∧
      tableLength m (physOffset + fw.rsdp.address) = 36 + fw.tables.length * fw.rsdp.width ∧
      m.Holds (physOffset + fw.rsdp.address + sdtHeaderSize)
        ((fw.tables.map Prod.fst).flatMap (bytesLE fw.rsdp.width)) := by
  have hroot := h.root
  rw [rootBytes, holds_append, holds_append, holds_append, fw.rsdp.length_signature,
    length_bytesLE, Vector.length_toList] at hroot
  obtain ⟨hsignature, hsize, -, hentries⟩ := hroot
  refine ⟨hsignature, ?_, hentries⟩
  exact (readLE_of_holds hsize).trans (Nat.mod_eq_of_lt fw.size_lt)

/-- **It lists the tables of the firmware.** -/
theorem listed_eq (h : fw.InMemory m rsdpPhys physOffset) :
    listed m (physOffset + fw.rsdp.address) fw.rsdp.width physOffset =
      fw.tables.map fun t => physOffset + t.1 := by
  obtain ⟨-, hsize, hentries⟩ := h.root_parts
  have hwords := map_readLE_of_holds hentries fun w hw => by
    obtain ⟨t, ht, rfl⟩ := List.mem_map.mp hw
    exact fw.addr_lt t ht
  rw [List.length_map] at hwords
  have hcount : (36 + fw.tables.length * fw.rsdp.width - sdtHeaderSize) / fw.rsdp.width =
      fw.tables.length := by
    rw [sdtHeaderSize, Nat.add_sub_cancel_left, Nat.mul_div_cancel _ fw.rsdp.width_pos]
  have hentry : entryAt m (physOffset + fw.rsdp.address) fw.rsdp.width physOffset =
      (physOffset + ·) ∘ fun i =>
        m.readLE (physOffset + fw.rsdp.address + sdtHeaderSize + i * fw.rsdp.width)
          fw.rsdp.width := rfl
  rw [listed, hsize, hcount, hentry, ← List.map_map, hwords, List.map_map]
  rfl

end Firmware.InMemory

/-! ## The first MADT -/

theorem Sdt.isTable_of_holds {t : Sdt} (h : m.Holds a t.bytes) (ha : a ≠ 0) :
    isTable m madtSignature a = t.asMadt.isSome := by
  rw [isTable, decide_eq_true ha, Bool.true_and]
  cases t with
  | madt t hsignature =>
    have hbytes := bytesAt_of_holds (holds_append.mp h).1
    rw [Vector.length_toList] at hbytes
    rw [hbytes, hsignature]
    rfl
  | other signature hsignature =>
    have hheld : m.Holds a signature.toList := h
    have hbytes := bytesAt_of_holds hheld
    rw [Vector.length_toList] at hbytes
    rw [hbytes]
    exact beq_false_of_ne hsignature

/-- **The search of the walk** ends at the first MADT of a list of tables. -/
theorem find_madt {tables : List (ℕ × Sdt)} (hoffset : 0 < physOffset)
    (h : ∀ t ∈ tables, m.Holds (physOffset + t.1) t.2.bytes) :
    match tables.findSome? (fun t => t.2.asMadt.map (t.1, ·)) with
    | none => (tables.map fun t => physOffset + t.1).find? (isTable m madtSignature) = none
    | some (addr, t) => (tables.map fun t => physOffset + t.1).find? (isTable m madtSignature) =
        some (physOffset + addr) ∧ m.Holds (physOffset + addr) t.bytes := by
  induction tables with
  | nil => rfl
  | cons t tables ih =>
    obtain ⟨addr, sdt⟩ := t
    have hsdt := h _ List.mem_cons_self
    have htable := Sdt.isTable_of_holds hsdt (Nat.add_pos_left hoffset addr).ne'
    cases sdt with
    | madt t hsignature =>
      rw [List.map_cons, List.find?_cons_of_pos htable]
      exact ⟨rfl, hsdt⟩
    | other signature hsignature =>
      rw [List.map_cons, List.find?_cons_of_neg (by rw [htable]; exact Bool.false_ne_true)]
      exact ih fun t ht => h t (List.mem_cons_of_mem _ ht)

/-! ## The MADT -/

theorem Table.lapicPhysBase_apicInfo (t : Table) :
    t.apicInfo.lapicPhysBase = 0 ↔ t.lapicAddress = 0 := by
  rw [apicInfo, lapicPhysBase_foldl, ← UInt32.toNat_inj, ← UInt64.toNat_inj]
  exact Iff.of_eq (congrArg (· = 0) t.lapicAddress.toNat_toUInt64)

theorem Table.ioapicCount_apicInfo (t : Table) :
    t.apicInfo.ioapicCount = 0 ↔ ioApics t.entries = [] := by
  have hrec : Recorded t.apicInfo t.entries := .foldl ⟨.nil _, .nil _, .nil _⟩ t.entries
  rw [hrec.addrs.count_eq, List.length_map, ← List.length_eq_zero_iff, maxIoapics]
  omega

/-- **The search from the root pointer** goes over the tables of the firmware. -/
theorem Firmware.InMemory.outcome_parseRsdp (h : fw.InMemory m rsdpPhys physOffset)
    (hoffset : 0 < physOffset) : (parseRsdp rsdpPhys physOffset).outcome m =
      if fw.tables = [] ∨ fw.rsdp.width ∣ physOffset + fw.rsdp.address + sdtHeaderSize then
        some ((fw.tables.map fun t => physOffset + t.1).find? (isTable m madtSignature))
      else none := by
  have hroot := Rsdp.rootTable_of_holds h.rsdp
  have hbytes := bytesAt_of_holds h.root_parts.1
  rw [fw.rsdp.length_signature] at hbytes
  have htable : isTable m fw.rsdp.root.1 (physOffset + fw.rsdp.address) = true := by
    rw [isTable, decide_eq_true (Nat.add_pos_left hoffset _).ne', hbytes]
    exact beq_self_eq_true _
  have hheader : sdtHeaderSize ≤ tableLength m (physOffset + fw.rsdp.address) := by
    rw [h.root_parts.2.1]
    exact Nat.le_add_right _ _
  have hfirst : Apic.firstMadt m (fw.tables.map fun t => physOffset + t.1) = some _ :=
    firstMadt_eq_iff.mpr fun l₁ ptr l₂ heq _ => by
      have hmem : ptr ∈ l₁ ++ ptr :: l₂ := List.mem_append_right _ List.mem_cons_self
      rw [← heq] at hmem
      obtain ⟨t, ht, rfl⟩ := List.mem_map.mp hmem
      exact h.tables_lt t ht
  rw [Apic.outcome_parseRsdp (Word.add_of_lt h.rsdp_lt) (Rsdp.signature_of_holds h.rsdp)
    (by rw [hroot]; exact Word.add_of_lt h.root_lt), hroot]
  have hout := outcome_findMadt fw.rsdp.width physOffset htable hheader
  rw [h.listed_eq, hfirst] at hout
  simp only [List.map_eq_nil_iff] at hout
  exact hout

/-- **What a MADT comes to.** -/
theorem outcome_detectAt (h : m.Holds a t.bytes) :
    (a + t.size < 2 ^ 64 ∧ 4 ∣ a ∧ FieldsAligned t.entries →
      (detectAt a).outcome m = if t.lapicAddress = 0 then none
        else if ioApics t.entries = [] then some none else some (some t.apicInfo)) ∧
    (¬ (a + t.size < 2 ^ 64 ∧ 4 ∣ a ∧ FieldsAligned t.entries) →
      (detectAt a).outcome m = none) := by
  have hbind : (detectAt a).outcome m = ((parseMadtAt a).outcome m).bind fun info =>
      if info.lapicPhysBase = 0 then none
      else if info.ioapicCount = 0 then some none else some (some info) := by
    rw [detectAt, outcome_bind]
    · congr 1
      funext info
      dsimp only
      split_ifs <;> exact outcome_pure _
    · rfl
  rw [hbind]
  refine ⟨fun haligned => ?_, fun hnot => ?_⟩
  · rw [(outcome_parseMadtAt h).mpr ⟨haligned, rfl⟩, Option.bind_some]
    simp only [t.lapicPhysBase_apicInfo, t.ioapicCount_apicInfo]
  · have hnone : (parseMadtAt a).outcome m = none :=
      Option.eq_none_iff_forall_ne_some.mpr fun info hout =>
        hnot ((outcome_parseMadtAt h).mp hout).1
    rw [hnone, Option.bind_none]

/-- `detect` goes on with the table the root pointer leads to. -/
theorem outcome_detect (hrsdp : rsdpPhys ≠ 0) (hoffset : 0 < physOffset) :
    (detect rsdpPhys physOffset).outcome m =
      ((parseRsdp rsdpPhys physOffset).outcome m).bind fun madt =>
        madt.elim (some none) fun madt => (detectAt madt).outcome m := by
  rw [detect, if_pos ⟨hrsdp, hoffset⟩, outcome_bind]
  · congr 1
    funext madt
    cases madt with
    | none => exact outcome_pure _
    | some madt => rw [Option.elim_some]
  · rfl

/-- **`detect` returns what the firmware says** where the firmware is aligned, wherever in memory it
is and whichever revision its root pointer has.  Elsewhere it panics. -/
theorem detect_inverts (hrsdp : rsdpPhys ≠ 0) (hoffset : 0 < physOffset)
    (h : fw.InMemory m rsdpPhys physOffset) :
    (fw.Aligned physOffset → (detect rsdpPhys physOffset).outcome m = fw.apic) ∧
      (¬ fw.Aligned physOffset → (detect rsdpPhys physOffset).outcome m = none) := by
  rw [outcome_detect hrsdp hoffset, h.outcome_parseRsdp hoffset]
  by_cases hroot : fw.tables = [] ∨ fw.rsdp.width ∣ physOffset + fw.rsdp.address + sdtHeaderSize
  · rw [if_pos hroot, Option.bind_some]
    have haligned : fw.Aligned physOffset ↔ ∀ addr t, fw.madt = some (addr, t) →
        physOffset + addr + t.size < 2 ^ 64 ∧ 4 ∣ physOffset + addr ∧ FieldsAligned t.entries :=
      ⟨fun hal => hal.madt, fun hal => ⟨fun hne => hroot.resolve_left hne, hal⟩⟩
    have hfind := find_madt hoffset h.tables
    rw [← Firmware.madt] at hfind
    rw [haligned, Firmware.apic]
    rcases hmadt : fw.madt with _ | ⟨addr, t⟩
    · rw [hmadt] at hfind
      rw [hfind]
      exact ⟨fun _ => rfl, fun hnot => absurd (fun _ _ heq => by cases heq) hnot⟩
    · rw [hmadt] at hfind
      rw [hfind.1, Option.elim_some]
      obtain ⟨hok, hstop⟩ := outcome_detectAt hfind.2
      refine ⟨fun hal => hok (hal addr t rfl), fun hnot => hstop fun hal => hnot ?_⟩
      rintro addr' t' heq
      obtain ⟨rfl, rfl⟩ := Prod.mk.inj (Option.some.inj heq)
      exact hal
  · rw [if_neg hroot, Option.bind_none]
    exact ⟨fun hal => absurd (or_iff_not_imp_left.mpr hal.root) hroot, fun _ => rfl⟩

/-- An XSDT with two tables, the second of them a MADT. -/
def pcFirmware : Firmware where
  rsdp := .second (Vector.replicate 7 0) 2 0 36 68 (UInt8.le_refl 2)
  fields := Vector.replicate 28 0
  tables := [(120, .other #v[0x46, 0x41, 0x43, 0x50] (by decide)), (124, .madt plainTable rfl)]
  addr_lt := by decide
  size_lt := by decide

/-- Its root pointer is at 16; physical memory is seen at 4096. -/
def pcMemory : Mem := fun a => (List.replicate 16 0 ++ pcFirmware.rsdp.bytes ++
  List.replicate 20 0 ++ pcFirmware.rootBytes ++ [0x46, 0x41, 0x43, 0x50] ++
    plainTable.bytes).getD (a - 4096) 0

theorem detect_inverts_pcFirmware :
    pcFirmware.InMemory pcMemory 16 4096 ∧
      (detect 16 4096).outcome pcMemory = some (some plainTable.apicInfo) := by
  have hheld : pcFirmware.InMemory pcMemory 16 4096 :=
    ⟨by decide +kernel, by decide +kernel, by decide +kernel, by decide, by decide, by decide⟩
  have haligned : pcFirmware.Aligned 4096 := by
    refine ⟨fun _ => by decide, fun addr t heq => ?_⟩
    obtain ⟨rfl, rfl⟩ := Prod.mk.inj (Option.some.inj heq)
    exact ⟨by decide +kernel, by decide, fieldsAligned_plainTable⟩
  exact ⟨hheld, ((detect_inverts (by decide) (by decide) hheld).1 haligned).trans rfl⟩

end YontiOs.Apic
