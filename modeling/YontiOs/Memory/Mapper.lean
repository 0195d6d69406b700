import YontiOs.Memory.Requests

/-!
# Memory/Mapper — mapping a page

The page tables are in the hands of a library: `Mapper` is one, with its `map_to`, the frames that
pages have and the tables that are missing, over a state that stays open.  `map_to` takes frames
from the allocator it is given for the tables that are missing on the way to a page
(`Mapper.Documented`).  `fourLevel` does what is documented (`fourLevel_documented`).
-/

namespace YontiOs.Buddy

open BuddyAllocator AlignedRange

inductive MapToError
  | frameAllocationFailed
  | parentEntryHugePage
  | pageAlreadyMapped
deriving DecidableEq, Repr

/-- `allocate_frame()`. -/
def Sys.allocateFrame (s : Sys) : Option (Option ℕ × Sys) := do
  let (frame, alloc) ← s.alloc.allocateFrame
  some (frame, ⟨alloc, (frame.map fun f => (f, 0)).toList ++ s.live⟩)

/-- Frames are allocated until there are enough, or none is left. -/
def Sys.takeFrames : ℕ → Sys → Option (Bool × Sys)
  | 0, s => some (true, s)
  | n + 1, s => do
    match ← s.allocateFrame with
    | (none, s) => some (false, s)
    | (some _, s) => takeFrames n s

/-- A mapper: its `map_to(page, frame, flags, frame_allocator)`, the frame of each page, how many
tables are missing on the way to a page, and whether no entry on that way maps a huge page. -/
structure Mapper (τ : Type) where
  mapTo : ℕ → ℕ → τ → Sys → Option (Except MapToError Unit × τ × Sys)
  frameOf : τ → ℕ → Option ℕ
  missing : τ → ℕ → ℕ
  Clear : τ → ℕ → Prop

/-- **What its documentation says.** -/
structure Mapper.Documented {τ : Type} (m : Mapper τ) : Prop where
  /-- A table of the lowest level has 512 entries. -/
  shared : ∀ t p q, p / 512 = q / 512 → m.missing t p = m.missing t q ∧ (m.Clear t p → m.Clear t q)
  /-- For a page that is not mapped, with no huge page on its way, a frame is allocated for each
  missing table, and if there is one for each, the page gets its frame. -/
  map_to : ∀ page frame t s, m.frameOf t page = none → m.Clear t page →
    ∃ t', m.mapTo page frame t s = (s.takeFrames (m.missing t page)).map (fun r =>
        (if r.1 then .ok () else .error .frameAllocationFailed, t', r.2)) ∧
      ∀ s', s.takeFrames (m.missing t page) = some (true, s') →
        m.frameOf t' = Function.update (m.frameOf t) page (some frame) ∧ m.Clear t' page ∧
        m.missing t' page = 0

/-! ## Tables of four levels -/

/-- The tables there are, the entries that map a huge page instead, and the frames of pages. -/
structure PageTables where
  tables : Finset (ℕ × ℕ)
  huge : Finset (ℕ × ℕ)
  pages : ℕ → Option ℕ

/-- The table of a level on the way to a page. -/
def tableOf (page level : ℕ) : ℕ × ℕ := (level, page / 512 ^ level)

namespace PageTables

/-- The tables on a way, created where they are missing. -/
def createTables (page : ℕ) : List ℕ → PageTables → Sys →
    Option (Except MapToError Unit × PageTables × Sys)
  | [], t, s => some (.ok (), t, s)
  | level :: levels, t, s =>
    if tableOf page level ∈ t.huge then some (.error .parentEntryHugePage, t, s)
    else if tableOf page level ∈ t.tables then createTables page levels t s
    else do
      match ← s.allocateFrame with
      | (none, s) => some (.error .frameAllocationFailed, t, s)
      | (some _, s) =>
        createTables page levels { t with tables := insert (tableOf page level) t.tables } s

def mapTo (page frame : ℕ) (t : PageTables) (s : Sys) :
    Option (Except MapToError Unit × PageTables × Sys) := do
  match ← createTables page [3, 2, 1] t s with
  | (.error e, t, s) => some (.error e, t, s)
  | (.ok (), t, s) =>
    if (t.pages page).isSome then some (.error .pageAlreadyMapped, t, s)
    else some (.ok (), { t with pages := Function.update t.pages page (some frame) }, s)

/-- How many of the tables on the way to a page are missing. -/
def missing (t : PageTables) (page : ℕ) (levels : List ℕ) : ℕ :=
  (levels.filter fun level => decide (tableOf page level ∉ t.tables)).length

/-- No entry on the way to a page maps a huge page. -/
def Clear (t : PageTables) (page : ℕ) (levels : List ℕ) : Prop :=
  ∀ level ∈ levels, tableOf page level ∉ t.huge

end PageTables

/-- The tables of the processor. -/
def fourLevel : Mapper PageTables where
  mapTo := PageTables.mapTo
  frameOf := PageTables.pages
  missing t page := t.missing page [3, 2, 1]
  Clear t page := t.Clear page [3, 2, 1]

namespace PageTables

variable {page level : ℕ} {levels : List ℕ} {t : PageTables}

theorem missing_cons : t.missing page (level :: levels) =
    (if tableOf page level ∈ t.tables then 0 else 1) + t.missing page levels := by
  rw [missing, missing, List.filter_cons]
  by_cases h : tableOf page level ∈ t.tables
  · simp [h]
  · simp [h, add_comm]

theorem missing_eq_zero (h : ∀ l ∈ levels, tableOf page l ∈ t.tables) :
    t.missing page levels = 0 := by
  rw [missing, List.length_eq_zero_iff, List.filter_eq_nil_iff]
  intro l hl
  rw [decide_eq_true_iff, not_not]
  exact h l hl

/-- A table of another level does not count. -/
theorem missing_insert (h : level ∉ levels) :
    missing { t with tables := insert (tableOf page level) t.tables } page levels =
      t.missing page levels := by
  refine congrArg List.length (List.filter_congr fun l hl => ?_)
  have hne : tableOf page l ≠ tableOf page level := fun heq => h ((Prod.mk.inj heq).1 ▸ hl)
  simp only [Finset.mem_insert, hne, false_or]

/-- **The tables on a way** take a frame for each that is missing, and are all there in the end. -/
theorem createTables_spec (hnodup : levels.Nodup) (hclear : t.Clear page levels) (s : Sys) :
    ∃ t', createTables page levels t s = (s.takeFrames (t.missing page levels)).map (fun r =>
        (if r.1 then .ok () else .error .frameAllocationFailed, t', r.2)) ∧
      t'.pages = t.pages ∧ t'.huge = t.huge ∧ (∀ k ∈ t.tables, k ∈ t'.tables) ∧
      ∀ s', s.takeFrames (t.missing page levels) = some (true, s') →
        ∀ l ∈ levels, tableOf page l ∈ t'.tables := by
  induction levels generalizing t s with
  | nil => exact ⟨t, rfl, rfl, rfl, fun _ h => h, fun _ _ => List.forall_mem_nil _⟩
  | cons level levels ih =>
    obtain ⟨hnot, hnodup⟩ := List.nodup_cons.mp hnodup
    obtain ⟨hhead, htail⟩ := List.forall_mem_cons.mp hclear
    rw [createTables, if_neg hhead, missing_cons]
    by_cases hmem : tableOf page level ∈ t.tables
    · rw [if_pos hmem, if_pos hmem, zero_add]
      obtain ⟨t', heq, hpages, hhuge, hkeep, hall⟩ := ih hnodup htail s
      refine ⟨t', heq, hpages, hhuge, hkeep, fun s' hs' => ?_⟩
      exact List.forall_mem_cons.mpr ⟨hkeep _ hmem, hall s' hs'⟩
    · rw [if_neg hmem, if_neg hmem, add_comm, Sys.takeFrames]
      rcases s.allocateFrame with _ | ⟨_ | f, s₁⟩
      · exact ⟨t, rfl, rfl, rfl, fun _ h => h, fun _ h => by cases h⟩
      · refine ⟨t, rfl, rfl, rfl, fun _ h => h, fun _ h => ?_⟩
        cases congrArg Prod.fst (Option.some.inj h)
      · obtain ⟨t', heq, hpages, hhuge, hkeep, hall⟩ :=
          ih (t := { t with tables := insert (tableOf page level) t.tables }) hnodup htail s₁
        rw [missing_insert hnot] at heq hall
        refine ⟨t', heq, hpages, hhuge, fun k hk => hkeep k (Finset.mem_insert_of_mem hk),
          fun s' hs' => ?_⟩
        exact List.forall_mem_cons.mpr ⟨hkeep _ (Finset.mem_insert_self _ _), hall s' hs'⟩

end PageTables

/-- Pages that differ in the lowest table's entry only have the same tables. -/
theorem tableOf_eq {p page l : ℕ} (h : p / 512 = page / 512) (hl : l ∈ [3, 2, 1]) :
    tableOf p l = tableOf page l := by
  have hl : 0 < l := by
    fin_cases hl <;> decide
  obtain ⟨k, rfl⟩ := Nat.exists_eq_add_one.mpr hl
  rw [tableOf, tableOf, pow_succ', ← Nat.div_div_eq_div_mul, ← Nat.div_div_eq_div_mul, h]

/-- **These tables do what is documented.** -/
theorem fourLevel_documented : fourLevel.Documented where
  shared t p q h := by
    refine ⟨congrArg List.length (List.filter_congr fun l hl => ?_), fun hclear l hl => ?_⟩
    · rw [tableOf_eq h hl]
    · rw [← tableOf_eq h hl]
      exact hclear l hl
  map_to page frame t s hpage hclear := by
    obtain ⟨t', heq, hpages, hhuge, -, hall⟩ :=
      PageTables.createTables_spec (show [3, 2, 1].Nodup by decide) hclear s
    have hmapTo : fourLevel.mapTo page frame t s = PageTables.mapTo page frame t s := rfl
    have hmissing : fourLevel.missing t page = t.missing page [3, 2, 1] := rfl
    rw [hmapTo, PageTables.mapTo, heq, hmissing]
    rcases htake : s.takeFrames (t.missing page [3, 2, 1]) with _ | ⟨_ | _, s'⟩
    · exact ⟨t', rfl, fun _ h => by cases h⟩
    · exact ⟨t', rfl, fun _ h => by cases congrArg Prod.fst (Option.some.inj h)⟩
    · have hnone : (t'.pages page).isSome = false := by
        rw [hpages, Option.isSome_eq_false_iff, Option.isNone_iff_eq_none]
        exact hpage
      refine ⟨{ t' with pages := Function.update t'.pages page (some frame) }, ?_, fun _ _ =>
        ⟨?_, fun l hl => ?_, PageTables.missing_eq_zero fun l hl => hall s' htake l hl⟩⟩
      · change (if (t'.pages page).isSome = true then _ else _) = _
        rw [hnone]
        rfl
      · change Function.update t'.pages page (some frame) = _
        rw [hpages]
        rfl
      · rw [hhuge]
        exact hclear l hl

end YontiOs.Buddy
