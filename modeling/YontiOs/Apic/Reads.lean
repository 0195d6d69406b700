import YontiOs.Apic.Table

/-!
# Apic/Reads — where `parse_madt` reads

The loop of `parse_madt` looks at the type and the length of an entry, and reads the fields of an
entry it records.  `passes` are the turns of the loop that come to an entry; every load is one of
the header, one of a type or a length, or one of a pass (`mem_loads_parseMadt`).

The loop checks an entry's length against the end of the table and against 2, and not against the
fields it reads.  So it stays inside the table and reads fields inside their entries just when the
entries it records are long enough (`parseMadt_inside_iff`).  The fields are aligned in an entry at
a multiple of 4 only (`parseMadt_aligned_iff`), and lengths need not be multiples of 4.
-/

namespace YontiOs.Apic

open LoadM Mem

/-- A turn of the loop that comes to an entry: where the entry is, and what was recorded before. -/
structure Pass where
  offset : ℕ
  info : ApicInfo

namespace Pass

variable (p : Pass) (m : Mem)

/-- The length the entry claims for itself. -/
def len : ℕ := (m (p.offset + 1)).toNat

/-- What the turn reads after the type and the length. -/
def loads : List Load := (parseEntry p.info p.offset (m p.offset)).loads m

/-- The entry is recorded as an I/O APIC. -/
def ReadsIoApic : Prop := m p.offset = 1 ∧ p.info.ioapicCount < maxIoapics

/-- The entry is recorded as an override. -/
def ReadsOverride : Prop := m p.offset = 2 ∧ p.info.overrideCount < maxOverrides

variable {p m}

theorem loads_of_readsIoApic (h : p.ReadsIoApic m) : p.loads m =
    [⟨p.offset + 2, 1, false⟩, ⟨p.offset + 4, 4, false⟩, ⟨p.offset + 8, 4, false⟩] := by
  rw [loads, parseEntry, dif_pos (And.intro h.1 h.2)]
  rfl

theorem loads_of_readsOverride (h : p.ReadsOverride m) : p.loads m =
    [⟨p.offset + 2, 1, false⟩, ⟨p.offset + 3, 1, false⟩, ⟨p.offset + 4, 4, false⟩,
      ⟨p.offset + 8, 2, false⟩] := by
  have hno : ¬ (m p.offset = 1 ∧ p.info.ioapicCount < maxIoapics) := fun h' =>
    absurd (h.1.symm.trans h'.1) (by decide)
  rw [loads, parseEntry, dif_neg hno, dif_pos (And.intro h.1 h.2)]
  rfl

theorem loads_of_skips (h₁ : ¬ p.ReadsIoApic m) (h₂ : ¬ p.ReadsOverride m) : p.loads m = [] := by
  rw [ReadsIoApic] at h₁
  rw [ReadsOverride] at h₂
  rw [loads, parseEntry, dif_neg h₁, dif_neg h₂]
  rfl

/-- A property of all loads of a turn is one of the loads of its kind. -/
theorem forall_loads_iff {P : Load → Prop} : (∀ ld ∈ p.loads m, P ld) ↔
    (p.ReadsIoApic m → P ⟨p.offset + 2, 1, false⟩ ∧ P ⟨p.offset + 4, 4, false⟩ ∧
      P ⟨p.offset + 8, 4, false⟩) ∧
    (p.ReadsOverride m → P ⟨p.offset + 2, 1, false⟩ ∧ P ⟨p.offset + 3, 1, false⟩ ∧
      P ⟨p.offset + 4, 4, false⟩ ∧ P ⟨p.offset + 8, 2, false⟩) := by
  by_cases h₁ : p.ReadsIoApic m
  · have h₂ : ¬ p.ReadsOverride m := fun h => absurd (h₁.1.symm.trans h.1) (by decide)
    simp [loads_of_readsIoApic h₁, h₁, h₂]
  · by_cases h₂ : p.ReadsOverride m
    · simp [loads_of_readsOverride h₂, h₁, h₂]
    · simp [loads_of_skips h₁ h₂, h₁, h₂]

end Pass

variable {m : Mem} {info : ApicInfo} {p : Pass} {ld : Load} {len offset base L : ℕ} {e : Entry}
  {es : List Entry}

/-! ## The turns of the loop -/

/-- The turns of the loop that come to an entry. -/
def passes (m : Mem) (len offset : ℕ) (info : ApicInfo) : List Pass :=
  if _hin : offset + 2 ≤ len then
    if _hlen : (m (offset + 1)).toNat < 2 then []
    else if offset + (m (offset + 1)).toNat > len then []
    else ⟨offset, info⟩ :: passes m len (offset + (m (offset + 1)).toNat)
      ((parseEntry info offset (m offset)).value m)
  else []
termination_by len - offset

/-- The turns of `parse_madt`. -/
def madtPasses (m : Mem) : List Pass :=
  passes m (m.readLE 4 4) 44 (.start ((load32 36).value m).toUInt64)

/-- **A turn's entry is in the table**, and has at least its type and its length. -/
theorem bounds_of_mem_passes (hp : p ∈ passes m len offset info) :
    offset ≤ p.offset ∧ 2 ≤ p.len m ∧ p.offset + p.len m ≤ len := by
  fun_induction passes with
  | case1 | case2 | case4 => cases hp
  | case3 offset info _ hlen hend ih =>
    rcases List.mem_cons.mp hp with rfl | hp
    · exact ⟨le_rfl, not_lt.mp hlen, not_lt.mp hend⟩
    · obtain ⟨hle, hrest⟩ := ih hp
      exact ⟨by omega, hrest⟩

/-- **The loop ends**: every turn moves on by two bytes or more. -/
theorem length_passes_le : 2 * (passes m len offset info).length ≤ len - offset := by
  fun_induction passes with
  | case1 | case2 | case4 => exact Nat.zero_le _
  | case3 offset info _ hlen hend ih =>
    rw [List.length_cons]
    omega

/-- The loads of a turn that comes to an entry, and of those after it. -/
theorem loads_parseEntries (hlen : ¬ (m (offset + 1)).toNat < 2)
    (hend : ¬ offset + (m (offset + 1)).toNat > len) :
    (parseEntries len offset info).loads m = ⟨offset, 1, false⟩ :: ⟨offset + 1, 1, false⟩ ::
      (Pass.loads ⟨offset, info⟩ m ++ (parseEntries len (offset + (m (offset + 1)).toNat)
        ((parseEntry info offset (m offset)).value m)).loads m) := by
  rw [parseEntries, dif_pos (by omega)]
  simp only [loads_bind, loads_load8, value_load8, dif_neg hlen, if_neg hend, Pass.loads,
    List.cons_append, List.nil_append]

/-- **The loads of the loop** are those of types and lengths, and those of its turns. -/
theorem mem_loads_parseEntries (hld : ld ∈ (parseEntries len offset info).loads m) :
    (ld.size = 1 ∧ ld.addr < len) ∨ ∃ p ∈ passes m len offset info, ld ∈ p.loads m := by
  induction offset, info using passes.induct m len with
  | case1 offset info hin hlen =>
    rw [parseEntries, dif_pos hin] at hld
    simp only [loads_bind, loads_load8, value_load8, dif_pos hlen, loads_pure] at hld
    rcases List.mem_pair.mp hld with rfl | rfl <;> exact .inl ⟨rfl, by dsimp only; omega⟩
  | case2 offset info hin hlen hend =>
    rw [parseEntries, dif_pos hin] at hld
    simp only [loads_bind, loads_load8, value_load8, dif_neg hlen, if_pos hend, loads_pure] at hld
    rcases List.mem_pair.mp hld with rfl | rfl <;> exact .inl ⟨rfl, by dsimp only; omega⟩
  | case3 offset info hin hlen hend ih =>
    rw [loads_parseEntries hlen hend] at hld
    rw [passes, dif_pos hin, dif_neg hlen, if_neg hend]
    rcases List.mem_cons.mp hld with rfl | hld
    · exact .inl ⟨rfl, by dsimp only; omega⟩
    rcases List.mem_cons.mp hld with rfl | hld
    · exact .inl ⟨rfl, by dsimp only; omega⟩
    rcases List.mem_append.mp hld with hld | hld
    · exact .inr ⟨_, List.mem_cons_self, hld⟩
    · exact (ih hld).imp_right fun h => h.imp fun p hp => ⟨List.mem_cons_of_mem _ hp.1, hp.2⟩
  | case4 offset info hin =>
    rw [parseEntries, dif_neg hin] at hld
    cases hld

/-- The loads of a turn are loads of the loop. -/
theorem mem_loads_of_pass (hp : p ∈ passes m len offset info) (hld : ld ∈ p.loads m) :
    ld ∈ (parseEntries len offset info).loads m := by
  fun_induction passes with
  | case1 | case2 | case4 => cases hp
  | case3 offset info hin hlen hend ih =>
    rw [loads_parseEntries hlen hend]
    refine List.mem_cons_of_mem _ (List.mem_cons_of_mem _ (List.mem_append.mpr ?_))
    rcases List.mem_cons.mp hp with rfl | hp
    · exact .inl hld
    · exact .inr (ih hp)

/-- **The loads of `parse_madt`**: the length, the address of the LAPIC, and those of the loop. -/
theorem loads_parseMadt : parseMadt.loads m = ⟨4, 4, true⟩ :: ⟨36, 4, false⟩ ::
    (parseEntries (m.readLE 4 4) 44 (.start ((load32 36).value m).toUInt64)).loads m := rfl

/-! ## Encoded tables -/

/-- The turns of the loop over a list of entries. -/
def entryPasses : ℕ → ApicInfo → List Entry → List Pass
  | _, _, [] => []
  | offset, info, e :: es => ⟨offset, info⟩ :: entryPasses (offset + e.bytes.length)
      (record info e) es

/-- **On encoded entries the loop takes a turn for each.** -/
theorem passes_eq (h : m.Holds offset (es.flatMap Entry.bytes))
    (hlen : len = offset + (es.flatMap Entry.bytes).length) :
    passes m len offset info = entryPasses offset info es := by
  induction es generalizing offset info with
  | nil => rw [passes, dif_neg (by simp [hlen]), entryPasses]
  | cons e es ih =>
    rw [List.flatMap_cons, holds_append] at h
    rw [List.flatMap_cons, List.length_append] at hlen
    have hbytes := e.length_bytes
    obtain ⟨hentry, hrest⟩ := h
    have hnat : (m (offset + 1)).toNat = e.bytes.length := by rw [hentry.2.1, e.toNat_length]
    rw [passes, dif_pos (by omega), hnat, dif_neg (by omega), if_neg (by omega), hentry.1,
      value_parseEntry hentry, ih hrest (by omega), entryPasses]

theorem Table.madtPasses_eq {t : Table} (h : m.Holds 0 t.bytes) : madtPasses m =
    entryPasses 44 (.start t.lapicAddress.toUInt64) t.entries := by
  obtain ⟨hlength, hlapic, hentries⟩ := t.holds_bytes h
  have hsize : m.readLE 4 4 = t.size :=
    (readLE_of_holds hlength).trans (Nat.mod_eq_of_lt t.size_lt)
  rw [madtPasses, hsize, value_load32 hlapic]
  exact passes_eq hentries rfl

/-- A turn over encoded entries is at one of them. -/
theorem exists_of_mem_entryPasses (h : m.Holds offset (es.flatMap Entry.bytes))
    (hp : p ∈ entryPasses offset info es) : ∃ e ∈ es, m.Holds p.offset e.bytes := by
  induction es generalizing offset info with
  | nil => cases hp
  | cons e es ih =>
    rw [List.flatMap_cons, holds_append] at h
    rcases List.mem_cons.mp hp with rfl | hp
    · exact ⟨e, List.mem_cons_self, h.1⟩
    · obtain ⟨e', he', hold⟩ := ih h.2 hp
      exact ⟨e', List.mem_cons_of_mem _ he', hold⟩

/-- An encoded entry is as long as its type asks for. -/
theorem Pass.len_of_holds (h : m.Holds p.offset e.bytes) :
    (p.ReadsIoApic m → 12 ≤ p.len m) ∧ (p.ReadsOverride m → 10 ≤ p.len m) := by
  have hlen : p.len m = e.bytes.length := by rw [Pass.len, h.2.1, e.toNat_length]
  rw [hlen, Pass.ReadsIoApic, Pass.ReadsOverride, h.1]
  cases e with
  | ioApic id reserved address gsiBase =>
    exact ⟨fun _ => le_rfl, fun hread => absurd hread.1 (show ¬ (1 : UInt8) = 2 by decide)⟩
  | sourceOverride bus ov =>
    exact ⟨fun hread => absurd hread.1 (show ¬ (2 : UInt8) = 1 by decide), fun _ => le_rfl⟩
  | other type body htype hbody =>
    exact ⟨fun hread => absurd hread.1 htype.1, fun hread => absurd hread.1 htype.2⟩

/-! ## Bounds -/

/-- A turn reads inside its entry when the entry is long enough for what it is recorded as. -/
theorem Pass.inside_iff :
    (∀ ld ∈ p.loads m, p.offset ≤ ld.addr ∧ ld.addr + ld.size ≤ p.offset + p.len m) ↔
      (p.ReadsIoApic m → 12 ≤ p.len m) ∧ (p.ReadsOverride m → 10 ≤ p.len m) := by
  rw [Pass.forall_loads_iff]
  dsimp only
  refine and_congr (forall_congr' fun _ => ?_) (forall_congr' fun _ => ?_) <;> omega

/-- A table of 46 bytes that ends with an I/O APIC entry of two bytes. -/
def shortTable : Mem :=
  ofBytes (List.replicate 4 0 ++ bytesLE 4 46 ++ List.replicate 36 0 ++ [1, 2])

/-- In a table at a multiple of 4, the fields a turn reads are aligned if its entry is. -/
theorem Pass.aligned_iff (hbase : 4 ∣ base) :
    (∀ ld ∈ p.loads m, ld.packed = false → ld.size ∣ base + ld.addr) ↔
      (p.ReadsIoApic m ∨ p.ReadsOverride m → 4 ∣ p.offset) := by
  rw [Pass.forall_loads_iff, or_imp]
  dsimp only
  refine and_congr (forall_congr' fun _ => ?_) (forall_congr' fun _ => ?_) <;>
    simp only [forall_true_left, one_dvd, true_and] <;> omega

/-- **When all loads are aligned**, for a table anywhere: the address of the LAPIC asks for a table
at a multiple of 4. -/
theorem loads_aligned_iff :
    (∀ ld ∈ parseMadt.loads m, ld.packed = false → ld.size ∣ base + ld.addr) ↔
      4 ∣ base ∧ ∀ p ∈ madtPasses m, p.ReadsIoApic m ∨ p.ReadsOverride m → 4 ∣ p.offset := by
  constructor
  · intro h
    have hlapic : 4 ∣ base + 36 := h ⟨36, 4, false⟩ (by
      rw [loads_parseMadt]
      exact List.mem_cons_of_mem _ List.mem_cons_self) rfl
    have hbase : 4 ∣ base := by omega
    refine ⟨hbase, fun p hp => (Pass.aligned_iff hbase).mp fun ld hld => h ld ?_⟩
    rw [loads_parseMadt]
    exact List.mem_cons_of_mem _ (List.mem_cons_of_mem _ (mem_loads_of_pass hp hld))
  · rintro ⟨hbase, h⟩ ld hld hpacked
    rw [loads_parseMadt, List.mem_cons, List.mem_cons] at hld
    rcases hld with rfl | rfl | hld
    · cases hpacked
    · dsimp only
      omega
    · rcases mem_loads_parseEntries hld with ⟨hsize, -⟩ | ⟨p, hp, hld⟩
      · rw [hsize]
        exact one_dvd _
      · exact (Pass.aligned_iff hbase).mpr (h p hp) ld hld hpacked

/-- **When the loads of `parse_madt` are aligned**, for a table at a multiple of 8: exactly if every
entry it records starts at a multiple of 4. -/
theorem parseMadt_aligned_iff (hbase : 8 ∣ base) :
    (∀ ld ∈ parseMadt.loads m, ld.packed = false → ld.size ∣ base + ld.addr) ↔
      ∀ p ∈ madtPasses m, p.ReadsIoApic m ∨ p.ReadsOverride m → 4 ∣ p.offset :=
  loads_aligned_iff.trans (and_iff_right (dvd_trans (by decide) hbase))

/-- A table with a source of interrupts that cannot be masked and an I/O APIC. -/
def plainTable : Table :=
  { pcTable with
    entries := [.other 3 [0, 0, 2, 0, 0, 0] (by decide) (by decide), .ioApic 1 0 0xfec00000 0]
    size_lt := by decide }

theorem parseMadt_aligned_iff_plainTable : 8 ∣ 0x7fe0000 ∧
    ∀ ld ∈ parseMadt.loads (ofBytes plainTable.bytes),
      ld.packed = false → ld.size ∣ 0x7fe0000 + ld.addr := by
  refine ⟨by decide, (parseMadt_aligned_iff (by decide)).mpr fun p hp _ => ?_⟩
  rw [Table.madtPasses_eq (holds_zero_ofBytes plainTable.bytes)] at hp
  rcases List.mem_pair.mp hp with rfl | rfl
  · exact (by decide : 4 ∣ 44)
  · exact (by decide : 4 ∣ 52)

/-- **A load that is not aligned**: after the first override, which takes 10 bytes, the second one's
GSI is at offset 78. -/
theorem parseMadt_misaligned : pcTable.bytes.length = pcTable.size ∧
    ⟨78, 4, false⟩ ∈ parseMadt.loads (ofBytes pcTable.bytes) ∧ ¬ 4 ∣ 78 := by
  have hholds := holds_zero_ofBytes pcTable.bytes
  have hpasses := Table.madtPasses_eq hholds
  obtain ⟨p, hp, hoff, hcount⟩ : ∃ p ∈ entryPasses 44 (.start pcTable.lapicAddress.toUInt64)
      pcTable.entries, p.offset = 74 ∧ p.info.overrideCount = 1 :=
    ⟨_, List.mem_cons_of_mem _ (List.mem_cons_of_mem _ (List.mem_cons_of_mem _ List.mem_cons_self)),
      rfl, rfl⟩
  have htype : ofBytes pcTable.bytes p.offset = 2 := by
    rw [hoff]
    decide +kernel
  refine ⟨by decide +kernel, ?_, by decide⟩
  rw [loads_parseMadt]
  refine List.mem_cons_of_mem _ (List.mem_cons_of_mem _ (mem_loads_of_pass (hpasses ▸ hp) ?_))
  rw [Pass.loads_of_readsOverride ⟨htype, by rw [hcount]; decide⟩, hoff]
  simp

/-! ## The parser, stopped by its loads -/

/-- An entry is recorded if it comes after these. -/
def Entry.RecordedAfter (es : List Entry) : Entry → Prop
  | ioApic .. => (ioApics es).length < maxIoapics
  | sourceOverride .. => (sourceOverrides es).length < maxOverrides
  | other .. => False

/-- **Every entry that is recorded starts at a multiple of 4**, as the table's first entry does: the
entries before it sum up to one. -/
def FieldsAligned (es : List Entry) : Prop :=
  ∀ es₁ e es₂, es = es₁ ++ e :: es₂ → e.RecordedAfter es₁ → 4 ∣ (es₁.flatMap Entry.bytes).length

/-- Where the loop records an entry. -/
theorem Pass.reads_iff {before : List Entry} (h : m.Holds offset e.bytes)
    (hrec : Recorded info before) :
    (⟨offset, info⟩ : Pass).ReadsIoApic m ∨ (⟨offset, info⟩ : Pass).ReadsOverride m ↔
      e.RecordedAfter before := by
  have hioapics := hrec.addrs.count_eq
  rw [List.length_map] at hioapics
  have hoverrides := hrec.overrides.count_eq
  have htype : m offset = e.type := h.1
  rw [ReadsIoApic, ReadsOverride]
  dsimp only
  rw [htype, hioapics, hoverrides]
  cases e with
  | ioApic id reserved address gsiBase =>
    simp [Entry.type, Entry.RecordedAfter]
  | sourceOverride bus ov =>
    simp [Entry.type, Entry.RecordedAfter]
  | other type body hother hbody =>
    simp [Entry.type, Entry.RecordedAfter, hother]

/-- The turns over encoded entries, after some others. -/
theorem entryPasses_aligned_iff (before : List Entry) (h : m.Holds offset (es.flatMap Entry.bytes))
    (hoffset : offset = 44 + (before.flatMap Entry.bytes).length) (hrec : Recorded info before) :
    (∀ p ∈ entryPasses offset info es, p.ReadsIoApic m ∨ p.ReadsOverride m → 4 ∣ p.offset) ↔
      ∀ es₁ e es₂, es = es₁ ++ e :: es₂ → e.RecordedAfter (before ++ es₁) →
        4 ∣ ((before ++ es₁).flatMap Entry.bytes).length := by
  induction es generalizing offset info before with
  | nil => simp [entryPasses]
  | cons e es ih =>
    rw [List.flatMap_cons, holds_append] at h
    have hnext : offset + e.bytes.length = 44 + ((before ++ [e]).flatMap Entry.bytes).length := by
      simp [hoffset, add_assoc]
    rw [entryPasses, List.forall_mem_cons, Pass.reads_iff h.1 hrec,
      ih (before ++ [e]) h.2 hnext (hrec.record e)]
    have hhead : 4 ∣ offset ↔ 4 ∣ (before.flatMap Entry.bytes).length := by omega
    constructor
    · rintro ⟨hfirst, hrest⟩ es₁ e' es₂ heq hafter
      cases es₁ with
      | nil =>
        obtain ⟨rfl, -⟩ := List.cons.inj heq
        rw [List.append_nil] at hafter ⊢
        exact hhead.mp (hfirst hafter)
      | cons _ es₁ =>
        obtain ⟨rfl, htail⟩ := List.cons.inj heq
        rw [List.append_cons] at hafter ⊢
        exact hrest es₁ e' es₂ htail hafter
    · refine fun hall => ⟨fun hafter => hhead.mpr ?_, fun es₁ e' es₂ heq hafter => ?_⟩
      · have := hall [] e es rfl
        rw [List.append_nil] at this
        exact this hafter
      · have := hall (e :: es₁) e' es₂ (by rw [heq, List.cons_append])
        rw [List.append_cons] at this
        exact this hafter

/-- **The parser comes to an end** where the table's end is an address and its loads are aligned.
Then it returns what the table says. -/
theorem outcome_parseMadtAt {t : Table} (h : m.Holds base t.bytes) :
    (parseMadtAt base).outcome m = some info ↔
      (base + t.size < 2 ^ 64 ∧ 4 ∣ base ∧ FieldsAligned t.entries) ∧ t.apicInfo = info := by
  set m₀ : Mem := fun addr => m (base + addr) with hm₀
  have hheld : m₀.Holds 0 t.bytes := Mem.Holds.relocate (a := 0) h
  obtain ⟨hlength, -, hentries⟩ := t.holds_bytes hheld
  have hsize₀ : m₀.readLE 4 4 = t.size :=
    (readLE_of_holds hlength).trans (Nat.mod_eq_of_lt t.size_lt)
  have hsize : (loadPacked (base + 4) 4).value m = t.size := hsize₀
  have hfields : FieldsAligned t.entries ↔
      ∀ p ∈ madtPasses m₀, p.ReadsIoApic m₀ ∨ p.ReadsOverride m₀ → 4 ∣ p.offset := by
    rw [Table.madtPasses_eq hheld]
    exact (entryPasses_aligned_iff [] hentries rfl ⟨.nil _, .nil _, .nil _⟩).symm
  have hvalue : (parseTable t.size).value m₀ = t.apicInfo := by
    rw [← hsize₀]
    exact value_parseMadt hheld
  have haligned : (∀ ld ∈ ((parseTable t.size).relocate base).loads m, ld.Aligned) ↔
      4 ∣ base ∧ FieldsAligned t.entries := by
    have hmadt : parseMadt.loads m₀ = ⟨4, 4, true⟩ :: (parseTable (m₀.readLE 4 4)).loads m₀ := rfl
    rw [hfields, ← loads_aligned_iff, hmadt, hsize₀, loads_relocate, List.forall_mem_map,
      List.forall_mem_cons, and_iff_right fun hpacked => by cases hpacked]
    rfl
  rw [outcome_eq_some, parseMadtAt, loads_bind, value_bind, hsize, Word.add]
  by_cases hend : base + t.size < 2 ^ 64
  · rw [if_pos hend]
    have hpacked : (⟨base + 4, 4, true⟩ : Load).Aligned := fun hplain => by cases hplain
    simp only [loads_bind, loads_loadPacked, loads_pure, value_bind, value_pure, value_relocate,
      List.append_nil, List.singleton_append, List.forall_mem_cons, eq_true hpacked, haligned,
      ← hm₀, hvalue, hend, Option.some.injEq, true_and]
  · rw [if_neg hend]
    exact iff_of_false (fun hnone => by cases hnone.2) fun hall => hend hall.1.1

/-- **When the parser inverts the encoding**: exactly if the end of the table is an address, the
table is at a multiple of 4, and so is every entry that is recorded. -/
theorem parseMadt_inverts_iff (t : Table) (h : m.Holds base t.bytes) :
    (∃ info, (parseMadtAt base).outcome m = some info ∧ Inverts t info) ↔
      base + t.size < 2 ^ 64 ∧ 4 ∣ base ∧ FieldsAligned t.entries := by
  constructor
  · rintro ⟨info, hout, -⟩
    exact ((outcome_parseMadtAt h).mp hout).1
  · exact fun hall => ⟨t.apicInfo, (outcome_parseMadtAt h).mpr ⟨hall, rfl⟩, t.inverts_apicInfo⟩

/-- A memory with a table at 64. -/
def tableAt64 (t : Table) : Mem := ofBytes (List.replicate 64 0 ++ t.bytes)

theorem fieldsAligned_plainTable : FieldsAligned plainTable.entries := by
  intro es₁ e es₂ heq _
  rcases es₁ with _ | ⟨e₁, _ | ⟨e₂, es₁⟩⟩
  · exact dvd_zero 4
  · obtain ⟨rfl, -⟩ := List.cons.inj heq
    exact (by decide : 4 ∣ 8)
  · have hlen := congrArg List.length heq
    simp [plainTable] at hlen

theorem parseMadt_inverts_iff_plainTable :
    ∃ info, (parseMadtAt 64).outcome (tableAt64 plainTable) = some info ∧
      info.ioapicCount = 1 ∧ info.ioapicAddrs.toList.take 1 = [0xfec00000] := by
  have hheld : (tableAt64 plainTable).Holds 64 plainTable.bytes := by decide +kernel
  obtain ⟨info, hout, hinv⟩ := (parseMadt_inverts_iff plainTable hheld).mpr
    ⟨by decide +kernel, by decide, fieldsAligned_plainTable⟩
  have hcount : info.ioapicCount = 1 := hinv.ioapicCount
  exact ⟨info, hout, hcount, hcount ▸ hinv.ioapicAddrs⟩

/-- **The parser is stopped** at the second override of an ordinary table. -/
theorem parseMadt_stopped : (tableAt64 pcTable).Holds 64 pcTable.bytes ∧
    64 + pcTable.size < 2 ^ 64 ∧ 4 ∣ 64 ∧ (parseMadtAt 64).outcome (tableAt64 pcTable) = none := by
  have hheld : (tableAt64 pcTable).Holds 64 pcTable.bytes := by decide +kernel
  refine ⟨hheld, by decide +kernel, by decide, ?_⟩
  rw [Option.eq_none_iff_forall_ne_some]
  intro info hout
  obtain ⟨⟨-, -, hfields⟩, -⟩ := (outcome_parseMadtAt hheld).mp hout
  have hoverride : 4 ∣ 30 :=
    hfields (pcTable.entries.take 3) (.sourceOverride 0 ⟨0, 2, 0⟩) [] rfl
      (show 1 < maxOverrides by decide)
  omega

end YontiOs.Apic
