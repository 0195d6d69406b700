import YontiOs.Machinery.Loads
import YontiOs.Machinery.Word

/-!
# Apic/Rsdp — finding the MADT

`parse_rsdp` and the two walks it ends in, `find_madt_rsdt` and `find_madt_xsdt`.  The walks differ
in the signature of their table and in the width of its entries, so both are `findMadt`.  The outer
`none` of a result is a panic: the length of the table minus that of its header, and the sum of a
physical address and the offset of physical memory, are checked.

The entries are read through plain pointers behind a header of 36 bytes.  Both walks return the
first listed table that has the signature of a MADT, exactly if neither of the two sums is out of
range and the entries are aligned (`findMadt_walks_iff`), which those of an XSDT are only in a table
four bytes off a multiple of 8.
-/

namespace YontiOs.Apic

open LoadM Mem

/-! ## The walks -/

/-- The size of an `SdtHeader`. -/
def sdtHeaderSize : ℕ := 36

/-- `b"RSDT"`. -/
def rsdtSignature : List UInt8 := [0x52, 0x53, 0x44, 0x54]

/-- `b"XSDT"`. -/
def xsdtSignature : List UInt8 := [0x58, 0x53, 0x44, 0x54]

/-- `b"APIC"`. -/
def madtSignature : List UInt8 := [0x41, 0x50, 0x49, 0x43]

/-- `b"RSD PTR "`. -/
def rsdpSignature : List UInt8 := [0x52, 0x53, 0x44, 0x20, 0x50, 0x54, 0x52, 0x20]

/-- `phys_to_virt(phys, offset)`. -/
def physToVirt (phys offset : ℕ) : Option ℕ := Word.add offset phys

/-- `check_signature(ptr, expected)`. -/
def checkSignature (ptr : ℕ) (expected : List UInt8) : LoadM Bool :=
  if ptr = 0 then return false
  else do return (← loadBytes ptr 4) == expected

/-- The loop over the entries of a table, of which `n` are left from the `i`-th on. -/
def findEntry (table width physOffset i : ℕ) : ℕ → LoadM (Option (Option ℕ))
  | 0 => return some none
  | n + 1 => do
    let entryPhys ← load (table + sdtHeaderSize + i * width) width
    match physToVirt entryPhys physOffset with
    | none => return none
    | some entryPtr =>
      if ← checkSignature entryPtr madtSignature then return some (some entryPtr)
      else findEntry table width physOffset (i + 1) n

/-- The walk over a table with a signature and with entries of `width` bytes. -/
def findMadt (signature : List UInt8) (width table physOffset : ℕ) : LoadM (Option (Option ℕ)) := do
  if ← checkSignature table signature then
    let length ← loadPacked (table + 4) 4
    match Word.sub length sdtHeaderSize with
    | none => return none
    | some rest => findEntry table width physOffset 0 (rest / width)
  else return some none

/-- `find_madt_rsdt(rsdt_ptr, phys_offset)`. -/
def findMadtRsdt : ℕ → ℕ → LoadM (Option (Option ℕ)) := findMadt rsdtSignature 4

/-- `find_madt_xsdt(xsdt_ptr, phys_offset)`. -/
def findMadtXsdt : ℕ → ℕ → LoadM (Option (Option ℕ)) := findMadt xsdtSignature 8

/-- A walk over the table at a physical address. -/
def walkAt (find : ℕ → ℕ → LoadM (Option (Option ℕ))) (phys physOffset : ℕ) :
    LoadM (Option (Option ℕ)) :=
  match physToVirt phys physOffset with
  | none => return none
  | some table => find table physOffset

/-- The end of `parse_rsdp`: the table of the first revision. -/
def walkRsdt (rsdp physOffset : ℕ) : LoadM (Option (Option ℕ)) := do
  let rsdtAddress ← loadPacked (rsdp + 16) 4
  walkAt findMadtRsdt rsdtAddress physOffset

/-- `parse_rsdp(rsdp_phys, phys_offset)`. -/
def parseRsdp (rsdpPhys physOffset : ℕ) : LoadM (Option (Option ℕ)) :=
  match physToVirt rsdpPhys physOffset with
  | none => return none
  | some ptr => do
    if (← loadBytes ptr 8) == rsdpSignature then
      let revision ← loadPacked (ptr + 15) 1
      if 2 ≤ revision then
        let xsdtAddress ← loadPacked (ptr + 24) 8
        if xsdtAddress ≠ 0 then walkAt findMadtXsdt xsdtAddress physOffset
        else walkRsdt ptr physOffset
      else walkRsdt ptr physOffset
    else return some none

/-! ## What the walks are for -/

variable {m : Mem} {ld : Load} {signature : List UInt8} {table width physOffset i n : ℕ}

/-- There is a table with this signature. -/
def isTable (m : Mem) (signature : List UInt8) (ptr : ℕ) : Bool :=
  ptr ≠ 0 && m.bytesAt ptr 4 == signature

/-- The length a table claims for itself. -/
def tableLength (m : Mem) (table : ℕ) : ℕ := m.readLE (table + 4) 4

/-- The `i`-th entry of a table, where the kernel sees it. -/
def entryAt (m : Mem) (table width physOffset i : ℕ) : ℕ :=
  physOffset + m.readLE (table + sdtHeaderSize + i * width) width

/-- The tables a table lists: as many as its length has room for. -/
def listed (m : Mem) (table width physOffset : ℕ) : List ℕ :=
  (List.range ((tableLength m table - sdtHeaderSize) / width)).map
    (entryAt m table width physOffset)

/-- **What a walk is for**: it returns the first listed table that is a MADT, and reads entries
inside its table only. -/
structure Walks (find : LoadM (Option (Option ℕ))) (m : Mem)
    (table width physOffset : ℕ) : Prop where
  outcome : find.outcome m =
    some ((listed m table width physOffset).find? (isTable m madtSignature))
  inside : ∀ ld ∈ find.loads m, ld.packed = false →
    table + sdtHeaderSize ≤ ld.addr ∧ ld.addr + ld.size ≤ table + tableLength m table

/-- The length covers the header, the entries are aligned if there are any, and those up to the
first MADT are addresses. -/
structure Readable (m : Mem) (table width physOffset : ℕ) : Prop where
  header : sdtHeaderSize ≤ tableLength m table
  aligned : listed m table width physOffset ≠ [] → width ∣ table + sdtHeaderSize
  entries : ∀ l₁ ptr l₂, listed m table width physOffset = l₁ ++ ptr :: l₂ →
    (∀ p ∈ l₁, isTable m madtSignature p = false) → ptr < 2 ^ 64

/-! ## The loop -/

theorem value_checkSignature {ptr : ℕ} :
    (checkSignature ptr signature).value m = isTable m signature ptr := by
  rw [checkSignature, isTable]
  by_cases h : ptr = 0
  · rw [if_pos h]
    simp [h]
  · rw [if_neg h]
    simp [h, value_loadBytes]

theorem packed_of_mem_checkSignature {ptr : ℕ}
    (h : ld ∈ (checkSignature ptr signature).loads m) : ld.packed = true := by
  rw [checkSignature] at h
  split_ifs at h
  · cases h
  · simp only [loads_bind, loads_loadBytes, loads_pure, List.append_nil, List.mem_singleton] at h
    rw [h]

/-- The walk over a list of addresses. -/
def firstMadt (m : Mem) : List ℕ → Option (Option ℕ)
  | [] => some none
  | ptr :: l =>
    if ptr < 2 ^ 64 then
      if isTable m madtSignature ptr then some (some ptr) else firstMadt m l
    else none

/-- **It finds the first MADT** when all addresses up to there are in range, and only then. -/
theorem firstMadt_eq_iff {l : List ℕ} : firstMadt m l = some (l.find? (isTable m madtSignature)) ↔
    ∀ l₁ ptr l₂, l = l₁ ++ ptr :: l₂ → (∀ p ∈ l₁, isTable m madtSignature p = false) →
      ptr < 2 ^ 64 := by
  induction l with
  | nil => simp [firstMadt]
  | cons ptr l ih =>
    rw [firstMadt]
    by_cases hptr : ptr < 2 ^ 64
    · rw [if_pos hptr]
      cases hmadt : isTable m madtSignature ptr with
      | true =>
        refine iff_of_true (by simp [hmadt]) fun l₁ p l₂ heq hl₁ => ?_
        cases l₁ with
        | nil => exact (List.cons.inj heq).1 ▸ hptr
        | cons q l₁ =>
          have hq := hl₁ q List.mem_cons_self
          rw [← (List.cons.inj heq).1, hmadt] at hq
          cases hq
      | false =>
        rw [if_neg (by simp), List.find?_cons_of_neg (by simp [hmadt]), ih]
        constructor
        · intro h l₁ p l₂ heq hl₁
          cases l₁ with
          | nil => exact (List.cons.inj heq).1 ▸ hptr
          | cons q l₁ =>
            exact h l₁ p l₂ (List.cons.inj heq).2 fun p hp => hl₁ p (List.mem_cons_of_mem _ hp)
        · intro h l₁ p l₂ heq hl₁
          refine h (ptr :: l₁) p l₂ (by rw [heq, List.cons_append]) ?_
          exact List.forall_mem_cons.mpr ⟨hmadt, hl₁⟩
    · rw [if_neg hptr]
      exact iff_of_false (by simp) fun h => hptr (h [] ptr l rfl (List.forall_mem_nil _))

theorem run_checkSignature {ptr : ℕ} :
    (checkSignature ptr signature).run m = some (isTable m signature ptr) := by
  rw [run_of_packed fun ld => packed_of_mem_checkSignature, value_checkSignature]

/-- **The loop** goes over the list of addresses, unless the first entry stops it. -/
theorem run_findEntry : (findEntry table width physOffset i n).run m =
    if n = 0 ∨ width ∣ table + sdtHeaderSize then
      some (firstMadt m ((List.range' i n).map (entryAt m table width physOffset)))
    else none := by
  induction n generalizing i with
  | zero => rw [if_pos (.inl rfl), findEntry, run_pure]; rfl
  | succ n ih =>
    have hload : width ∣ table + sdtHeaderSize + i * width ↔ width ∣ table + sdtHeaderSize :=
      (Nat.dvd_add_iff_left (dvd_mul_left width i)).symm
    rw [findEntry, run_bind, run_load]
    by_cases haligned : width ∣ table + sdtHeaderSize
    · rw [if_pos (hload.mpr haligned), if_pos (.inr haligned), Option.bind_some,
        List.range'_succ, List.map_cons, firstMadt, entryAt, physToVirt, Word.add]
      by_cases hptr : physOffset + m.readLE (table + sdtHeaderSize + i * width) width < 2 ^ 64
      · rw [if_pos hptr, if_pos hptr]
        dsimp only
        rw [run_bind, run_checkSignature, Option.bind_some]
        cases isTable m madtSignature (physOffset + _) with
        | true => exact run_pure _
        | false => exact ih.trans (if_pos (.inr haligned))
      · rw [if_neg hptr, if_neg hptr]
        exact run_pure _
    · rw [if_neg fun h => haligned (hload.mp h),
        if_neg fun h => h.elim (Nat.succ_ne_zero n) haligned]
      rfl

/-- The loop reads the entries that are left, one by one. -/
theorem mem_loads_findEntry (hld : ld ∈ (findEntry table width physOffset i n).loads m)
    (hplain : ld.packed = false) :
    ∃ j, i ≤ j ∧ j < i + n ∧ ld.addr = table + sdtHeaderSize + j * width ∧ ld.size = width := by
  induction n generalizing i with
  | zero => cases hld
  | succ n ih =>
    rw [findEntry, loads_bind, loads_load, List.singleton_append, List.mem_cons] at hld
    rcases hld with rfl | hld
    · exact ⟨i, le_rfl, by omega, rfl, rfl⟩
    cases hptr : physToVirt ((load (table + sdtHeaderSize + i * width) width).value m)
        physOffset with
    | none =>
      rw [hptr] at hld
      cases hld
    | some ptr =>
      rw [hptr, loads_bind, List.mem_append] at hld
      rcases hld with hld | hld
      · rw [packed_of_mem_checkSignature hld] at hplain
        cases hplain
      · cases hmadt : (checkSignature ptr madtSignature).value m with
        | true =>
          rw [hmadt] at hld
          cases hld
        | false =>
          rw [hmadt] at hld
          obtain ⟨j, hle, hlt, heq⟩ := ih hld
          exact ⟨j, by omega, by omega, heq⟩

/-! ## The walks -/

/-- A walk reads plain words in its loop only. -/
theorem mem_loads_findMadt (htable : isTable m signature table = true)
    (hheader : sdtHeaderSize ≤ tableLength m table)
    (hld : ld ∈ (findMadt signature width table physOffset).loads m) (hplain : ld.packed = false) :
    ld ∈ (findEntry table width physOffset 0
      ((tableLength m table - sdtHeaderSize) / width)).loads m := by
  have hcheck : (checkSignature table signature).value m = true := value_checkSignature.trans htable
  have hlength : (loadPacked (table + 4) 4).value m = tableLength m table := rfl
  rw [findMadt, loads_bind, hcheck, if_pos rfl, loads_bind, hlength, Word.sub_of_le hheader,
    loads_loadPacked, List.mem_append, List.mem_append, List.mem_singleton] at hld
  rcases hld with hld | rfl | hld
  · rw [packed_of_mem_checkSignature hld] at hplain
    cases hplain
  · cases hplain
  · exact hld

theorem listed_eq_nil_iff : listed m table width physOffset = [] ↔
    (tableLength m table - sdtHeaderSize) / width = 0 := by
  rw [listed, List.map_eq_nil_iff, List.range_eq_nil]

/-- **What a walk comes to** in a table whose length covers its header. -/
theorem outcome_findMadt (width physOffset : ℕ) (htable : isTable m signature table = true)
    (hheader : sdtHeaderSize ≤ tableLength m table) :
    (findMadt signature width table physOffset).outcome m =
      if listed m table width physOffset = [] ∨ width ∣ table + sdtHeaderSize then
        firstMadt m (listed m table width physOffset)
      else none := by
  have hlength : m.readLE (table + 4) 4 = tableLength m table := rfl
  rw [outcome, findMadt, run_bind, run_checkSignature, htable, Option.bind_some, if_pos rfl,
    run_bind, run_loadPacked, hlength, Option.bind_some, Word.sub_of_le hheader]
  dsimp only
  rw [run_findEntry, ← List.range_eq_range', ← listed]
  simp only [listed_eq_nil_iff]
  split_ifs <;> rfl

/-- **When a walk does what it is for**: exactly if the table is readable. -/
theorem findMadt_walks_iff (hwidth : 0 < width) (htable : isTable m signature table = true) :
    Walks (findMadt signature width table physOffset) m table width physOffset ↔
      Readable m table width physOffset := by
  by_cases hheader : sdtHeaderSize ≤ tableLength m table
  · have hout := outcome_findMadt width physOffset htable hheader
    constructor
    · intro h
      have heq := h.outcome
      rw [hout] at heq
      split_ifs at heq with haligned
      exact ⟨hheader, fun hne => haligned.resolve_left hne, firstMadt_eq_iff.mp heq⟩
    · refine fun h => ⟨?_, fun ld hld hplain => ?_⟩
      · rw [hout, if_pos (or_iff_not_imp_left.mpr h.aligned)]
        exact firstMadt_eq_iff.mpr h.entries
      · obtain ⟨j, -, hj, haddr, hsize⟩ :=
          mem_loads_findEntry (mem_loads_findMadt htable hheader hld hplain) hplain
        -- the entry after the last one ends where the whole entries end
        have hend : (j + 1) * width ≤ tableLength m table - sdtHeaderSize :=
          (Nat.le_div_iff_mul_le hwidth).mp (by omega)
        rw [add_mul, one_mul] at hend
        omega
  · refine iff_of_false (fun h => ?_) fun h => hheader h.header
    have hvalue := (outcome_eq_some.mp h.outcome).2
    have hcheck : (checkSignature table signature).value m = true :=
      value_checkSignature.trans htable
    have hlength : (loadPacked (table + 4) 4).value m = tableLength m table := rfl
    rw [findMadt, value_bind, hcheck, if_pos rfl, value_bind, hlength, Word.sub, if_neg hheader]
      at hvalue
    cases hvalue

/-- **The walks over the RSDT and the XSDT** stay inside their table and return the first MADT it
lists, exactly if the length of the table covers its header, its entries are aligned, and no address
of an entry they come to is out of range. -/
theorem walks_iff_readable (m : Mem) (table physOffset : ℕ) :
    (isTable m rsdtSignature table = true →
        (Walks (findMadtRsdt table physOffset) m table 4 physOffset ↔
          Readable m table 4 physOffset)) ∧
      (isTable m xsdtSignature table = true →
        (Walks (findMadtXsdt table physOffset) m table 8 physOffset ↔
          Readable m table 8 physOffset)) :=
  ⟨findMadt_walks_iff (by decide), findMadt_walks_iff (by decide)⟩

/-- A memory with a table of tables at an address below 100 that claims `length` bytes, and a MADT
at 200. -/
def tablesAt (table : ℕ) (signature : List UInt8) (length : ℕ) (entries : List UInt8) : Mem :=
  ofBytes (List.replicate table 0 ++ signature ++ bytesLE 4 length ++ List.replicate 28 0 ++
    entries ++ List.replicate (164 - table - entries.length) 0 ++ madtSignature)

/-- A table all of whose entries are addresses is readable. -/
theorem Readable.of_forall_lt (hheader : sdtHeaderSize ≤ tableLength m table)
    (haligned : listed m table width physOffset ≠ [] → width ∣ table + sdtHeaderSize)
    (hlt : ∀ ptr ∈ listed m table width physOffset, ptr < 2 ^ 64) :
    Readable m table width physOffset :=
  ⟨hheader, haligned, fun _ _ _ heq _ => hlt _ (heq ▸ List.mem_append_right _ List.mem_cons_self)⟩

/-- Both walks find the second of two tables. -/
theorem walks_iff_readable_second :
    (findMadtRsdt 64 0).outcome (tablesAt 64 rsdtSignature 44 (bytesLE 4 160 ++ bytesLE 4 200)) =
        some (some 200) ∧
      (findMadtXsdt 68 0).outcome (tablesAt 68 xsdtSignature 52 (bytesLE 8 160 ++ bytesLE 8 200)) =
        some (some 200) := by
  constructor
  · refine (((walks_iff_readable _ 64 0).1 (by decide +kernel)).mpr (.of_forall_lt
      (by decide +kernel) (fun _ => by decide) (by decide +kernel))).outcome.trans ?_
    decide +kernel
  · refine (((walks_iff_readable _ 68 0).2 (by decide +kernel)).mpr (.of_forall_lt
      (by decide +kernel) (fun _ => by decide) (by decide +kernel))).outcome.trans ?_
    decide +kernel

/-- **Three walks that panic**: over an RSDT that claims 8 bytes, fewer than its header has, over an
XSDT at a multiple of 8, whose one entry is not aligned, and over an XSDT whose entry is aligned but
names the last physical address, beyond the last virtual one. -/
theorem walks_panic :
    (isTable (tablesAt 64 rsdtSignature 8 []) rsdtSignature 64 = true ∧
      (findMadtRsdt 64 0).value (tablesAt 64 rsdtSignature 8 []) = none ∧
      (findMadtRsdt 64 0).outcome (tablesAt 64 rsdtSignature 8 []) = none) ∧
    (isTable (tablesAt 64 xsdtSignature 44 (bytesLE 8 200)) xsdtSignature 64 = true ∧
      (findMadtXsdt 64 0).outcome (tablesAt 64 xsdtSignature 44 (bytesLE 8 200)) = none) ∧
    isTable (tablesAt 68 xsdtSignature 44 (bytesLE 8 (2 ^ 64 - 1))) xsdtSignature 68 = true ∧
      (findMadtXsdt 68 1).outcome (tablesAt 68 xsdtSignature 44 (bytesLE 8 (2 ^ 64 - 1))) =
        none := by
  decide +kernel

/-! ## The root pointer -/

/-- The table of tables an RSDP names: its signature, the width of its entries and its address. -/
def rootTable (m : Mem) (rsdp : ℕ) : List UInt8 × ℕ × ℕ :=
  if 2 ≤ m.readLE (rsdp + 15) 1 ∧ m.readLE (rsdp + 24) 8 ≠ 0 then
    (xsdtSignature, 8, m.readLE (rsdp + 24) 8)
  else (rsdtSignature, 4, m.readLE (rsdp + 16) 4)

/-- **The search from the RSDP** is a walk over the table of tables it names. -/
theorem outcome_parseRsdp {rsdpPhys rsdp : ℕ} (hrsdp : physToVirt rsdpPhys physOffset = some rsdp)
    (hsignature : m.bytesAt rsdp 8 = rsdpSignature)
    (hroot : physToVirt (rootTable m rsdp).2.2 physOffset = some table) :
    (parseRsdp rsdpPhys physOffset).outcome m =
      (findMadt (rootTable m rsdp).1 (rootTable m rsdp).2.1 table physOffset).outcome m := by
  have hrsdt : (walkRsdt rsdp physOffset).run m =
      (walkAt findMadtRsdt (m.readLE (rsdp + 16) 4) physOffset).run m := by
    rw [walkRsdt, run_bind, run_loadPacked, Option.bind_some]
  rw [outcome, outcome, parseRsdp, hrsdp]
  dsimp only
  rw [run_bind, run_loadBytes, hsignature, Option.bind_some, if_pos (by decide), run_bind,
    run_loadPacked, Option.bind_some]
  rw [rootTable] at *
  by_cases hxsdt : 2 ≤ m.readLE (rsdp + 15) 1 ∧ m.readLE (rsdp + 24) 8 ≠ 0
  · rw [if_pos hxsdt] at *
    rw [if_pos hxsdt.1, run_bind, run_loadPacked, Option.bind_some, if_pos hxsdt.2, walkAt, hroot]
    rfl
  · rw [if_neg hxsdt] at *
    rw [walkAt, hroot] at hrsdt
    split_ifs with hrev
    · rw [run_bind, run_loadPacked, Option.bind_some, if_neg fun hne => hxsdt ⟨hrev, hne⟩, hrsdt]
      rfl
    · rw [hrsdt]
      rfl

end YontiOs.Apic
