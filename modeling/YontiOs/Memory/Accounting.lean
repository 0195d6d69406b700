import YontiOs.Memory.Canonical
import YontiOs.Memory.Borders

/-!
# Memory/Accounting — what `free_frames` counts

`free_frames` is the number of tracked frames less the number handed out, and the tracked frames are
the whole span of the usable regions.  A frame in a hole between them is never free, yet it is
counted: `free_frames` is off by the number of such frames, and `allocate_frame` runs dry before it
gets to zero (`free_frames_counts_holes`).  Without holes it is exact, in every state that unlinks
blocks of the lists only (`free_frames_exact_iff`).
-/

namespace YontiOs.Buddy

open AlignedRange BuddyAllocator

variable {G : Layout} {Q : Set (ℕ × ℕ)} {s : Sys} {a₀ : BuddyAllocator} {L : ℕ → List ℕ}
  {B : List (ℕ × ℕ)} {offset : ℕ} {us regions : List MemoryRegion} {mem : Mem}

/-- **`free_frames` is exact**: it is the number of frames in listed blocks, which are those whose
bit is set, and `allocate_frame` finds none when it is zero. -/
structure Exact (a : BuddyAllocator) : Prop where
  listed : ∀ x, x ∈ a.free ↔ ∃ k, ∃ i ∈ a.listed k, Has (i, k) x
  frames : a.freeFrames = some a.free.ncard
  exhausted : (∃ a', a.allocateFrame = some (none, a')) ↔ a.freeFrames = some 0

/-- All tracked frames are in usable regions. -/
def NoHole (us : List MemoryRegion) : Prop :=
  ∀ x < tracked us, ∃ r ∈ us, r.Has (lowest us + x * frameSize) 1

namespace Sys.Inv

theorem free_eq_setOf (h : s.Inv G Q L B) : s.alloc.free = {x | Free (blocks L) x} :=
  Set.ext h.holds.bits

theorem freeFrames_eq (h : s.Inv G Q L B) : s.alloc.freeFrames = some (G.total - units B) := by
  rw [freeFrames, h.count, h.holds.total_eq, Word.sub_of_le h.holds.pool.units_le]

/-- **The count is right when all tracked frames are managed.** -/
theorem freeFrames_eq_ncard_iff (h : s.Inv G Q L B) :
    s.alloc.freeFrames = some s.alloc.free.ncard ↔ ∀ x < G.total, x ∈ G.usable := by
  have hsum := h.holds.pool.ncard_free_add_units
  have hle := h.holds.pool.units_le
  have hsub : {x | x < G.total ∧ x ∈ G.usable} ⊆ Set.Iio G.total := fun x hx => hx.1
  rw [h.freeFrames_eq, Option.some.injEq, h.free_eq_setOf]
  constructor
  · intro heq x hx
    have hall := Set.eq_of_subset_of_ncard_le hsub
      (by rw [Set.ncard_Iio_nat]; omega) (Set.finite_Iio _)
    have hmem : x ∈ {x | x < G.total ∧ x ∈ G.usable} := hall ▸ hx
    exact hmem.2
  · intro hall
    have hset : {x | x < G.total ∧ x ∈ G.usable} = Set.Iio G.total :=
      hsub.antisymm fun x hx => ⟨hx, hall x hx⟩
    rw [hset, Set.ncard_Iio_nat] at hsum
    omega

/-- **`allocate_frame` finds none when no frame is free.** -/
theorem allocateFrame_eq_none_iff (h : s.Inv G Q L B) :
    (∃ a', s.alloc.allocateFrame = some (none, a')) ↔ s.alloc.free = ∅ := by
  rw [allocateFrame, h.holds.allocateFrameOrder_eq_none_iff h.count, h.free_eq_setOf,
    Set.eq_empty_iff_forall_notMem]
  constructor
  · rintro hnil x ⟨⟨i, k⟩, hi, -⟩
    have hi : i ∈ L k := hi
    rw [hnil k (Nat.zero_le k)] at hi
    exact absurd hi List.not_mem_nil
  · intro hempty k _
    rw [List.eq_nil_iff_forall_not_mem]
    exact fun i hi => hempty i ⟨(i, k), hi, has_self _⟩

/-- Exactness, by the frames that are tracked. -/
theorem exact_iff (h : s.Inv G Q L B) : Exact s.alloc ↔ ∀ x < G.total, x ∈ G.usable := by
  rw [← h.freeFrames_eq_ncard_iff]
  refine ⟨Exact.frames, fun hframes => ⟨fun x => ?_, hframes, ?_⟩⟩
  · rw [h.free_eq_setOf]
    constructor
    · rintro ⟨⟨i, k⟩, hi, hx⟩
      exact ⟨k, i, h.holds.listed_eq ▸ hi, hx⟩
    · rintro ⟨k, i, hi, hx⟩
      rw [h.holds.listed_eq] at hi
      exact ⟨(i, k), hi, hx⟩
  · have hfin : s.alloc.free.Finite :=
      (Set.finite_Iio G.total).subset fun x hx => h.lt_of_mem_free hx
    rw [h.allocateFrame_eq_none_iff, hframes, Option.some.injEq, Set.ncard_eq_zero hfin]

end Sys.Inv

/-- **When `free_frames` is exact**, over disjoint page-aligned usable regions: in all states of all
runs that unlink blocks of the lists only, exactly if the tracked frames have no hole.  Where halves
are in regions, all runs are of that kind. -/
theorem free_frames_exact_iff (hal : ∀ r ∈ usableRegions regions, r.PageAligned)
    (hdis : (usableRegions regions).Pairwise MemoryRegion.Disjoint)
    (hnew : new regions offset mem = some a₀) :
    ((∀ ops s, Run Sys.exec (fun s op => s.Allowed op ∧ s.UnlinksListed op) ⟨a₀, []⟩ ops s →
        Exact s.alloc) ↔ NoHole (usableRegions regions)) ∧
      (HalvesInRegions (usableRegions regions) →
        ((∀ ops s, Run Sys.exec Sys.Allowed ⟨a₀, []⟩ ops s → Exact s.alloc) ↔
          NoHole (usableRegions regions))) := by
  obtain ⟨h, L₀, h₀, -⟩ := inv_of_new hal hdis hnew
  have hiff : ∀ {s : Sys} {L B}, s.Inv (layoutOf (usableRegions regions) offset h)
      (oneRegion (usableRegions regions)) L B → (Exact s.alloc ↔ NoHole (usableRegions regions)) :=
    fun hs => hs.exact_iff.trans (forall₂_congr fun x hx => and_iff_right hx)
  refine ⟨⟨fun hall => (hiff h₀).mp (hall [] _ (.nil _)), fun hno ops s hrun => ?_⟩,
    fun hhalf => ⟨fun hall => (hiff h₀).mp (hall [] _ (.nil _)), fun hno ops s hrun => ?_⟩⟩
  · obtain ⟨L, B, hs⟩ := h₀.run_of_unlinksListed hrun
    exact (hiff hs).mpr hno
  · obtain ⟨L, B, hs⟩ := h₀.run hhalf.asks hrun
    exact (hiff hs).mpr hno

theorem free_frames_exact_iff_evenRegions : ∃ a₀ s, new evenRegions 0 (fun _ => 0) = some a₀ ∧
    Run Sys.exec Sys.Allowed ⟨a₀, []⟩ [.allocate 1, .allocate 0, .deallocate 0x102000 1] s ∧
    Exact s.alloc := by
  have hgo : ((new evenRegions 0 fun _ => 0).any fun a₀ =>
      (Sys.exec ⟨a₀, []⟩ (.allocate 1)).any fun s₁ => (s₁.exec (.allocate 0)).any fun s₂ =>
        decide ((0x102000, 1) ∈ s₂.live) && (s₂.exec (.deallocate 0x102000 1)).isSome) = true := by
    decide +kernel
  simp only [Option.any_eq_true, Bool.and_eq_true, decide_eq_true_eq, Option.isSome_iff_exists]
    at hgo
  obtain ⟨a₀, hnew, s₁, hs₁, s₂, hs₂, hlive, s, hs⟩ := hgo
  have hrun : Run Sys.exec Sys.Allowed ⟨a₀, []⟩
      [.allocate 1, .allocate 0, .deallocate 0x102000 1] s :=
    .cons trivial hs₁ (.cons trivial hs₂ (.cons hlive hs (.nil s)))
  have hno : NoHole (usableRegions evenRegions) := by
    have htotal : tracked (usableRegions evenRegions) = 4 := by decide
    rw [NoHole, htotal]
    decide
  have hboth := free_frames_exact_iff (by decide) (by decide) hnew
  exact ⟨a₀, s, hnew, hrun, (hboth.2 halvesInRegions_evenRegions).mpr hno _ s hrun⟩

/-- **`free_frames` counts the frame of a hole**: three of four tracked frames are usable and free.
With all three handed out `allocate_frame` finds none, and `free_frames` is still 1.  Over touching
regions, without any hole, the defect of the merge loop has frame 3 handed out twice, and then
`free_frames` underflows. -/
theorem free_frames_counts_holes : (∃ a₀ s, new apartRegions 0 (fun _ => 0) = some a₀ ∧
      a₀.free = {0, 1, 3} ∧ a₀.freeFrames = some 4 ∧
      Run Sys.exec Sys.Allowed ⟨a₀, []⟩ [.allocate 1, .allocate 0] s ∧
      s.alloc.allocateFrame = some (none, s.alloc) ∧ s.alloc.freeFrames = some 1) ∧
    ∃ a₀ s, new touchingRegions 0 (fun _ => 0) = some a₀ ∧
      Run Sys.exec Sys.Allowed ⟨a₀, []⟩
        [.allocate 1, .deallocate 0x100000 1, .allocate 0, .allocate 2] s ∧
      s.alloc.freeFrames = none := by
  have hholes : ((new apartRegions 0 fun _ => 0).any fun a₀ =>
      decide (((List.range 4).map a₀.bit) = [true, true, false, true]) &&
      decide (a₀.freeFrames = some 4) && (Sys.exec ⟨a₀, []⟩ (.allocate 1)).any fun s₁ =>
      (s₁.exec (.allocate 0)).any fun s => decide (s.alloc.freeFrames = some 1) &&
      (List.range 11).all fun k => (s.alloc.freeLists k).isNone) = true := by decide +kernel
  have htouch : ((new touchingRegions 0 fun _ => 0).any fun a₀ =>
      (Sys.exec ⟨a₀, []⟩ (.allocate 1)).any fun s₁ => decide ((0x100000, 1) ∈ s₁.live) &&
      (s₁.exec (.deallocate 0x100000 1)).any fun s₂ => (s₂.exec (.allocate 0)).any fun s₃ =>
      (s₃.exec (.allocate 2)).any fun s => decide (s.alloc.freeFrames = none)) = true := by
    decide +kernel
  simp only [Option.any_eq_true, Bool.and_eq_true, decide_eq_true_eq, List.all_eq_true,
    List.mem_range, Option.isNone_iff_eq_none] at hholes htouch
  obtain ⟨a₀, hnew, ⟨hbits, hfour⟩, s₁, hs₁, s, hs, hone, hnone⟩ := hholes
  obtain ⟨b₀, hnew', t₁, ht₁, hlive, t₂, ht₂, t₃, ht₃, t, ht, hunder⟩ := htouch
  refine ⟨⟨a₀, s, hnew, ?_, hfour, .cons trivial hs₁ (.cons trivial hs (.nil s)), ?_, hone⟩,
    b₀, t, hnew', .cons trivial ht₁
      (.cons hlive ht₂ (.cons trivial ht₃ (.cons trivial ht (.nil t)))),
    hunder⟩
  · obtain ⟨_, hinv⟩ := inv_univ_of_run (by decide) (by decide) hnew
    obtain ⟨L, B, h₀⟩ := hinv [] _ (.nil _)
    ext x
    by_cases hx : x < 4
    · have hbit : a₀.bit x = [true, true, false, true].getD x false := by
        rw [← hbits]
        simp [hx]
      rw [show x ∈ a₀.free ↔ a₀.bit x = true from Iff.rfl, hbit]
      interval_cases x <;> simp
    · have htotal : tracked (usableRegions apartRegions) = 4 := by decide
      refine iff_of_false (fun hmem => hx (htotal ▸ h₀.lt_of_mem_free hmem)) ?_
      rintro (rfl | rfl | rfl) <;> omega
  · rw [allocateFrame, allocateFrameOrder, if_neg (by decide), List.find?_eq_none.mpr
      fun k hk => ?_]
    rw [hnone k (by have := List.mem_range'_1.mp hk; simp only [maxOrder] at this; omega)]
    decide

end YontiOs.Buddy
