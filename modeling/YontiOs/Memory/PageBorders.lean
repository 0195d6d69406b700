import YontiOs.Memory.Borders

/-!
# Memory/PageBorders — regions that start or end inside a page

`new` takes region borders as they come and divides by the frame size, which rounds both ends of a
region down, counted from the lowest usable address.  A frame is then named by rounding its address
down once more.

* If the lowest address is inside a page, the two roundings differ: no frame handed out leads back
  to its own index (`physToIdx_frameAt_iff`).
* If it is a page border, `new` does what it would do with every border rounded down to its page
  (`new_floor`), so the results on page-aligned regions apply.  The frames managed are usable, up to
  the part of a region's first page that is before the region.
-/

namespace YontiOs.Buddy

open AlignedRange BuddyAllocator

variable {s s' : BuddyAllocator} {i j k x b d pos stop offset : ℕ} {r : MemoryRegion} {mem : Mem}
  {us regions : List MemoryRegion} {a₀ : BuddyAllocator}

/-! ## The lowest address stays -/

section Base

/-- The first frame tracked is at `b`. -/
def AtBase (b : ℕ) (s : BuddyAllocator) : Prop := s.basePhys = b

/-- A value of which nothing is said. -/
theorem returns_any {α : Type*} (o : Option α) : Returns False o fun _ => True :=
  ⟨fun _ _ => trivial, False.elim⟩

theorem returns_none {α : Type*} {P : α → Prop} : Returns False none P :=
  ⟨fun _ h => (nomatch h), False.elim⟩

theorem markFree_base (hb : AtBase b s) : Returns False (s.markFree i) (AtBase b) := by
  simp only [markFree]
  split_ifs
  · exact .of_eq rfl hb
  · exact returns_none

theorem markAllocated_base (hb : AtBase b s) : Returns False (s.markAllocated i) (AtBase b) := by
  simp only [markAllocated]
  split_ifs
  · exact .of_eq rfl hb
  · exact returns_none

theorem markRangeFree_base (hb : AtBase b s) : Returns False (s.markRangeFree i k) (AtBase b) :=
  .foldlM (I := fun _ => AtBase b) hb fun _ _ _ _ _ => markFree_base

theorem markRangeAllocated_base (hb : AtBase b s) :
    Returns False (s.markRangeAllocated i k) (AtBase b) :=
  .foldlM (I := fun _ => AtBase b) hb fun _ _ _ _ _ => markAllocated_base

theorem insertFree_base (hb : AtBase b s) : Returns False (s.insertFree i k) (AtBase b) := by
  simp only [insertFree, Option.bind_eq_bind, Option.bind_some]
  split_ifs
  · refine (markRangeFree_base hb).bind fun s hb => (returns_any _).bind fun p _ => ?_
    split
    · exact (returns_any _).bind fun _ _ => .of_eq rfl hb
    · exact .of_eq rfl hb
  · exact returns_none

theorem popFree_base (hb : AtBase b s) : Returns False (s.popFree k) fun r => AtBase b r.2 := by
  simp only [popFree, Option.bind_eq_bind, Option.bind_some]
  split
  · exact .of_eq rfl hb
  · refine (returns_any _).bind fun p _ => ?_
    generalize nextAt s.mem p = w
    have hrest : ∀ s' idx, AtBase b s' → Returns False
        ((s'.markRangeAllocated idx (2 ^ k)).bind fun s' => some (some idx, s'))
        fun r => AtBase b r.2 :=
      fun s' idx hb => (markRangeAllocated_base hb).bind fun _ hb => .of_eq rfl hb
    split_ifs
    · exact (returns_any _).bind fun _ _ => hrest _ _ hb
    · exact hrest _ _ hb

theorem removeFree_base (hb : AtBase b s) : Returns False (s.removeFree i k) (AtBase b) := by
  simp only [removeFree, Option.bind_eq_bind, Option.bind_some]
  refine (returns_any _).bind fun p _ => ?_
  generalize nextAt s.mem p = w
  generalize prevAt s.mem p = v
  have hrest : ∀ s', AtBase b s' → Returns False
      (if w ≠ nullLink then (s'.linksAt w).bind fun q => some (s'.setPrev q v) else some s')
      (AtBase b) := by
    intro s' hb
    split_ifs
    · exact (returns_any _).bind fun _ _ => .of_eq rfl hb
    · exact .of_eq rfl hb
  by_cases hv : v ≠ nullLink
  · rw [if_pos hv]
    exact (returns_any _).bind fun _ _ => hrest _ hb
  · rw [if_neg hv]
    exact hrest _ hb

theorem split_base (hb : AtBase b s) : Returns False (s.split i k d) (AtBase b) := by
  induction d generalizing s with
  | zero => exact .of_eq rfl hb
  | succ d ih => exact (returns_any _).bind fun _ _ => (insertFree_base hb).bind fun _ => ih

/-- The address of the frame that is returned for an index. -/
def frameAt (base i : ℕ) : ℕ := (base + i * frameSize) / frameSize * frameSize

theorem handOut_base (hb : AtBase b s) :
    Returns False (s.handOut i k) fun r => AtBase b r.2 ∧ r.1 = some (frameAt b i) := by
  refine (returns_any _).bind fun c _ => ?_
  refine Returns.bind (P := (· = b + i * frameSize)) ⟨fun p hp => ?_, False.elim⟩ ?_
  · obtain ⟨n, hn, hp⟩ := Option.bind_eq_some_iff.mp hp
    obtain ⟨rfl, -⟩ := Word.mul_eq_some hn
    obtain ⟨rfl, -⟩ := Word.add_eq_some hp
    rw [← hb]
  · rintro _ rfl
    split_ifs
    · exact .of_eq rfl ⟨hb, rfl⟩
    · exact returns_none

theorem allocateFrameOrder_base (hb : AtBase b s) :
    Returns False (s.allocateFrameOrder k) fun r =>
      AtBase b r.2 ∧ ∀ f ∈ r.1, ∃ i, f = frameAt b i := by
  rw [allocateFrameOrder]
  split_ifs
  · exact .of_eq rfl ⟨hb, by simp⟩
  split
  · exact .of_eq rfl ⟨hb, by simp⟩
  · refine (popFree_base hb).bind ?_
    rintro ⟨_ | idx, s⟩ hb
    · exact .of_eq rfl ⟨hb, by simp⟩
    · refine (split_base hb).bind fun s hb => (handOut_base hb).mono ?_
      rintro ⟨f, s⟩ ⟨hb, rfl⟩
      exact ⟨hb, by simp⟩

theorem coalesce_base (hb : AtBase b s) :
    Returns False (s.coalesce i k d).2 fun r => AtBase b r.2.2 := by
  induction d generalizing s i k with
  | zero => exact .of_eq rfl hb
  | succ d ih =>
    simp only [coalesce]
    split_ifs
    · exact .of_eq rfl hb
    split
    · exact returns_none
    · exact .of_eq rfl hb
    · have htake : Returns False (s.takeBuddy (buddy i k) k) (AtBase b) :=
        (removeFree_base hb).bind fun _ => markRangeAllocated_base
      cases hs' : s.takeBuddy (buddy i k) k with
      | none => exact returns_none
      | some s' => exact ih (htake.post s' hs')

theorem deallocateFrameOrder_base {f : ℕ} (hb : AtBase b s) :
    Returns False (s.deallocateFrameOrder f k) (AtBase b) := by
  rw [deallocateFrameOrder]
  split_ifs
  · exact .of_eq rfl hb
  · refine Returns.bind (P := fun r => AtBase b r.2.2) ?_ fun r hb => insertFree_base hb
    rw [merge]
    split
    · exact coalesce_base hb
    · exact returns_none

theorem markRegion_base (hb : AtBase b s) : Returns False (s.markRegion r) (AtBase b) := by
  refine (returns_any _).bind fun q _ =>
    .foldlM (I := fun _ => AtBase b) hb fun _ _ _ s _ hb => ?_
  split_ifs
  · exact markFree_base hb
  · exact .of_eq rfl hb

theorem carve_base (hb : AtBase b s) : Returns False (s.carve pos stop d) (AtBase b) := by
  induction d generalizing s pos with
  | zero => exact .of_eq rfl hb
  | succ d ih =>
    simp only [carve, Option.bind_eq_bind]
    split_ifs
    · refine (returns_any _).bind fun c _ => ?_
      split_ifs
      · exact (insertFree_base hb).bind fun _ => ih
      · exact ih hb
    · exact .of_eq rfl hb

theorem carveRegion_base (hb : AtBase b s) : Returns False (s.carveRegion r) (AtBase b) := by
  refine (returns_any _).bind fun q _ => ?_
  dsimp only
  split_ifs
  · exact .of_eq rfl hb
  · exact carve_base hb

theorem new_base :
    Returns False (new regions offset mem) (AtBase (lowest (usableRegions regions))) := by
  by_cases hne : usableRegions regions = []
  · rw [new, if_pos hne]
    exact returns_none
  rw [new_eq hne]
  generalize usableRegions regions = us
  refine (returns_any _).bind fun _ _ => ?_
  refine Returns.bind (P := AtBase (lowest us)) ?_ fun s hb => ?_
  · exact .foldlM (I := fun _ => AtBase (lowest us)) rfl fun _ _ _ _ _ => markRegion_base
  · exact .foldlM (I := fun _ => AtBase (lowest us)) hb fun _ _ _ _ _ => carveRegion_base

end Base

/-! ## Names of frames -/

/-- **A frame leads back to its index** exactly if the first frame starts at a page border. -/
theorem physToIdx_frameAt_iff (hb : AtBase b s) :
    s.physToIdx (frameAt b i) = some i ↔ frameSize ∣ b := by
  rw [AtBase] at hb
  simp only [physToIdx, frameAt, Word.sub, hb, frameSize, Option.bind_eq_bind]
  constructor
  · intro h
    split_ifs at h with hle
    · simp only [Option.bind_some, Option.some.injEq] at h
      omega
    · simp at h
  · rintro ⟨c, rfl⟩
    rw [if_pos (by omega), Option.bind_some, Option.some.injEq]
    omega

/-- Every live block starts at the frame of some index. -/
structure Sys.Named (b : ℕ) (s : Sys) : Prop where
  base : AtBase b s.alloc
  frame : ∀ a ∈ s.live, ∃ i, a.1 = frameAt b i

/-- **Every operation keeps the names**, whatever state it finds. -/
theorem Sys.Named.exec {s s' : Sys} {op : Op} (h : s.Named b) (hs' : s.exec op = some s') :
    s'.Named b := by
  cases op with
  | allocate order =>
    obtain ⟨⟨f, a⟩, ha, heq⟩ := Option.bind_eq_some_iff.mp hs'
    obtain rfl := Option.some.inj heq
    obtain ⟨hb, hf⟩ := (allocateFrameOrder_base h.base).post _ ha
    refine ⟨hb, fun c hc => ?_⟩
    rcases List.mem_append.mp hc with hc | hc
    · obtain ⟨g, hg, rfl⟩ := Option.map_eq_some_iff.mp (Option.mem_toList.mp hc)
      exact hf g hg
    · exact h.frame c hc
  | deallocate frame order =>
    obtain ⟨a, ha, heq⟩ := Option.bind_eq_some_iff.mp hs'
    obtain rfl := Option.some.inj heq
    exact ⟨(deallocateFrameOrder_base h.base).post a ha, fun c hc =>
      h.frame c (List.mem_of_mem_erase hc)⟩
  | store addr byte =>
    obtain rfl := Option.some.inj hs'
    exact ⟨h.base, h.frame⟩

/-- Along every run from `new`. -/
theorem named_of_new {ops : List Op} {s : Sys} (hnew : new regions offset mem = some a₀)
    (hrun : Run Sys.exec Sys.Allowed ⟨a₀, []⟩ ops s) :
    s.Named (lowest (usableRegions regions)) :=
  hrun.invariant (fun _ _ _ h _ hstep => h.exec hstep) ⟨new_base.post a₀ hnew, by simp⟩

/-! ## Borders rounded down -/

/-- A region with both ends rounded down to their pages. -/
def MemoryRegion.floor (r : MemoryRegion) : MemoryRegion :=
  ⟨r.start / frameSize * frameSize, r.end_ / frameSize * frameSize, r.kind⟩

theorem usableRegions_floor :
    usableRegions (regions.map MemoryRegion.floor) =
      (usableRegions regions).map MemoryRegion.floor := by
  rw [usableRegions, List.filter_map]
  rfl

theorem pageAligned_floor (h : r.start < 2 ^ 64) : r.floor.PageAligned :=
  ⟨(Nat.div_mul_le_self ..).trans_lt h, Nat.dvd_mul_left .., Nat.dvd_mul_left ..⟩

theorem disjoint_floor {r r' : MemoryRegion} (h : r.Disjoint r') : r.floor.Disjoint r'.floor :=
  h.imp (fun h => Nat.mul_le_mul_right _ (Nat.div_le_div_right h))
    fun h => Nat.mul_le_mul_right _ (Nat.div_le_div_right h)

/-- A page border below an address is below its page. -/
theorem le_floor_iff (hb : frameSize ∣ b) : b ≤ x / frameSize * frameSize ↔ b ≤ x := by
  obtain ⟨c, rfl⟩ := hb
  simp only [frameSize]
  omega

/-- Pages are counted alike from a page border. -/
theorem floor_sub_div (hb : frameSize ∣ b) :
    (x / frameSize * frameSize - b) / frameSize = (x - b) / frameSize := by
  obtain ⟨c, rfl⟩ := hb
  simp only [frameSize]
  omega

/-- The lowest address is a start, or none is lower than the last address of all. -/
theorem lowest_cases (us : List MemoryRegion) :
    lowest us = 2 ^ 64 - 1 ∨ ∃ r ∈ us, lowest us = r.start :=
  (lowest_spec us _).2.2

theorem lowest_floor (h : frameSize ∣ lowest us) :
    lowest (us.map MemoryRegion.floor) = lowest us := by
  refine le_antisymm ?_ ?_
  · rcases lowest_cases us with hlow | ⟨r, hr, hlow⟩
    · rw [hlow] at h
      exact absurd h (by decide)
    · rw [hlow]
      exact (lowest_le (List.mem_map_of_mem hr)).trans (Nat.div_mul_le_self ..)
  · rcases lowest_cases (us.map MemoryRegion.floor) with hlow | ⟨r', hr', hlow⟩
    · rw [hlow]
      exact (lowest_spec us _).1
    · obtain ⟨r, hr, rfl⟩ := List.mem_map.mp hr'
      rw [hlow]
      exact (le_floor_iff h).mpr (lowest_le hr)

theorem lastEnd_floor (us : List MemoryRegion) (e : ℕ) :
    (us.map MemoryRegion.floor).foldl (fun e r => max e r.end_) (e / frameSize * frameSize) =
      us.foldl (fun e r => max e r.end_) e / frameSize * frameSize := by
  induction us generalizing e with
  | nil => rfl
  | cons r us ih =>
    rw [List.map_cons, List.foldl_cons, List.foldl_cons, ← ih]
    congr 1
    simp only [MemoryRegion.floor, frameSize]
    omega

theorem tracked_floor (h : frameSize ∣ lowest us) :
    tracked (us.map MemoryRegion.floor) = tracked us := by
  have hend := lastEnd_floor us 0
  rw [Nat.zero_div, Nat.zero_mul] at hend
  rw [tracked, tracked, hend, lowest_floor h, floor_sub_div h]

theorem frameRange_floor (hb : frameSize ∣ s.basePhys) : s.frameRange r.floor = s.frameRange r := by
  simp only [frameRange, MemoryRegion.floor, Word.sub, le_floor_iff hb, Option.bind_eq_bind]
  split_ifs <;> simp [floor_sub_div hb]

/-- A pass over the regions that keeps the base and reads their frame indices only. -/
theorem foldlM_floor {f : BuddyAllocator → MemoryRegion → Option BuddyAllocator}
    (hf : ∀ s r, AtBase b s → Returns False (f s r) (AtBase b) ∧ f s r.floor = f s r)
    (hs : AtBase b s) : (us.map MemoryRegion.floor).foldlM f s = us.foldlM f s := by
  rw [List.foldlM_map]
  exact Returns.foldlM_congr hs fun r _ s hs => hf s r hs

/-- **Rounding the borders down changes nothing**, if the lowest address is a page border. -/
theorem new_floor (h : frameSize ∣ lowest (usableRegions regions)) :
    new (regions.map MemoryRegion.floor) offset mem = new regions offset mem := by
  by_cases hne : usableRegions regions = []
  · rw [new, new, if_pos hne, if_pos (by rw [usableRegions_floor, hne]; rfl)]
  rw [new_eq hne, new_eq (by rwa [usableRegions_floor, ne_eq, List.map_eq_nil_iff]),
    usableRegions_floor]
  generalize usableRegions regions = us at *
  have hend := lastEnd_floor us 0
  rw [Nat.zero_div, Nat.zero_mul] at hend
  have hsub : ∀ o : Option BuddyAllocator,
      ((Word.sub ((us.map MemoryRegion.floor).foldl (fun e r => max e r.end_) 0)
        (lowest (us.map MemoryRegion.floor))).bind fun _ => o) =
      (Word.sub (us.foldl (fun e r => max e r.end_) 0) (lowest us)).bind fun _ => o := by
    intro o
    simp only [hend, lowest_floor h, Word.sub, le_floor_iff h]
    split_ifs <;> rfl
  have hstart : unmarked (us.map MemoryRegion.floor) offset mem = unmarked us offset mem := by
    rw [unmarked, tracked_floor h, lowest_floor h]
    rfl
  have hmark : ∀ s r, AtBase (lowest us) s → Returns False (markRegion s r) (AtBase (lowest us)) ∧
      markRegion s r.floor = markRegion s r := fun s r hs =>
    ⟨markRegion_base hs, by rw [markRegion, frameRange_floor (hs ▸ h)]; rfl⟩
  have hcarve : ∀ s r, AtBase (lowest us) s →
      Returns False (carveRegion s r) (AtBase (lowest us)) ∧
      carveRegion s r.floor = carveRegion s r := fun s r hs =>
    ⟨carveRegion_base hs, by rw [carveRegion, frameRange_floor (hs ▸ h)]; rfl⟩
  have hbase : AtBase (lowest us) (unmarked us offset mem) := rfl
  rw [hsub, hstart, foldlM_floor hmark hbase]
  refine congrArg _ (funext fun _ => Option.bind_congr fun s hs => foldlM_floor hcarve ?_)
  exact Returns.post (g := False) (.foldlM (I := fun _ => AtBase (lowest us)) hbase
    fun _ r _ s _ hs => (hmark s r hs).1) s hs

/-- The frames `new` marks and carves. -/
def managedFrames (us : List MemoryRegion) : Set ℕ :=
  {x | x < tracked us ∧ ∃ r ∈ us,
    (r.start - lowest us) / frameSize ≤ x ∧ x < (r.end_ - lowest us) / frameSize}

/-- They are those of the regions rounded down. -/
theorem usableFrames_floor (h : frameSize ∣ lowest us) :
    usableFrames (us.map MemoryRegion.floor) = managedFrames us := by
  ext x
  simp only [usableFrames, managedFrames, Set.mem_ofPred_eq, tracked_floor h, lowest_floor h,
    List.mem_map, exists_exists_and_eq_and]
  refine and_congr_right fun _ => exists_congr fun r => and_congr_right fun hr => ?_
  have hle := lowest_le hr
  obtain ⟨c, hc⟩ := h
  simp only [MemoryRegion.Has, MemoryRegion.floor, hc, frameSize] at *
  omega

/-! ## Usable memory -/

/-- Every byte of the frame at `p` is in some region. -/
def Backed (us : List MemoryRegion) (p : ℕ) : Prop :=
  ∀ y, p ≤ y → y < p + frameSize → ∃ r ∈ us, r.start ≤ y ∧ y < r.end_

/-- Every frame of every live block is usable memory. -/
def Sys.LiveBacked (us : List MemoryRegion) (s : Sys) : Prop :=
  ∀ a ∈ s.live, ∀ j < 2 ^ a.2, Backed us (a.1 + j * frameSize)

theorem Sys.Inv.liveBacked {G : Layout} {Q : Set (ℕ × ℕ)} {s : Sys} {L : ℕ → List ℕ}
    {B : List (ℕ × ℕ)} (h : s.Inv G Q L B)
    (hall : ∀ x ∈ G.usable, Backed us (G.base + x * frameSize)) : s.LiveBacked us := by
  intro a ha j hj
  rw [h.live] at ha
  obtain ⟨⟨i, k⟩, hb, rfl⟩ := List.mem_map.mp ha
  have hx := hall (i + j) (h.holds.mem_usable hb ⟨Nat.le_add_right i j, Nat.add_lt_add_left hj i⟩)
  rwa [Nat.add_mul, ← Nat.add_assoc] at hx

/-- Every managed frame is handed out in some run. -/
theorem AtStart.backed {G : Layout} {s : Sys} {L : ℕ → List ℕ} (h : AtStart us G s L)
    (hmap : G.Mapped) {vs : List MemoryRegion}
    (hall : ∀ ops s', Run Sys.exec (fun s op => s.Allowed op ∧ s.UnlinksListed op) s ops s' →
      s'.LiveBacked vs) (hx : x ∈ usableFrames us) : Backed vs (G.base + x * frameSize) := by
  obtain ⟨⟨i, k⟩, hb, h1, h2⟩ := h.free hx
  obtain ⟨l₁, l₂, hL⟩ := List.append_of_mem hb
  obtain ⟨ops, s', B', hrun, h'⟩ := h.inv.pops_through hmap
    (h.inv.holds.pool.free_fits (i, k) hb).order_le hL
  have hlive : G.place (i, k) ∈ s'.live := by
    rw [h'.live]
    exact List.mem_cons_self
  have hback := hall ops s' hrun _ hlive (x - i) (by dsimp only [Layout.place] at *; omega)
  simp only [Layout.place, Nat.add_assoc, ← Nat.add_mul] at hback
  rwa [Nat.add_sub_cancel' h1] at hback

/-- Starts at page borders are enough. -/
theorem backed_of_starts (hlt : ∀ r ∈ us, r.start < 2 ^ 64) (h : ∀ r ∈ us, frameSize ∣ r.start)
    (hx : x ∈ managedFrames us) : Backed us (lowest us + x * frameSize) := by
  obtain ⟨-, r, hr, h1, h2⟩ := hx
  refine fun y hy hy' => ⟨r, hr, ?_⟩
  have hle := lowest_le hr
  have hlt := hlt r hr
  obtain ⟨c, hc⟩ := h r hr
  rcases lowest_cases us with hlow | ⟨r', hr', hlow⟩
  · simp only [frameSize] at hc
    omega
  · obtain ⟨c', hc'⟩ := h r' hr'
    simp only [frameSize] at *
    omega

/-- The state `new` leaves behind, from a page border on. -/
theorem atStart_of_new (hlt : ∀ r ∈ usableRegions regions, r.start < 2 ^ 64)
    (hdis : (usableRegions regions).Pairwise MemoryRegion.Disjoint)
    (hnew : new regions offset mem = some a₀) (h : frameSize ∣ lowest (usableRegions regions)) :
    ∃ h' L, AtStart ((usableRegions regions).map MemoryRegion.floor)
      (layoutOf ((usableRegions regions).map MemoryRegion.floor) offset h') ⟨a₀, []⟩ L := by
  rw [← new_floor h] at hnew
  rw [← usableRegions_floor]
  have hal : ∀ r ∈ usableRegions (regions.map MemoryRegion.floor), r.PageAligned := by
    rw [usableRegions_floor, List.forall_mem_map]
    exact fun r hr => pageAligned_floor (hlt r hr)
  have hdis' : (usableRegions (regions.map MemoryRegion.floor)).Pairwise MemoryRegion.Disjoint := by
    rw [usableRegions_floor, List.pairwise_map]
    exact hdis.imp disjoint_floor
  obtain ⟨h', L, hinv, hin⟩ := inv_of_new hal hdis' hnew
  exact ⟨h', L, hinv, hin, rfl, rfl⟩

/-- **When frames come from usable memory only**, over disjoint usable regions with any borders.

* In every state of every run, a live block starts at the frame of some index, and that frame leads
  back to the index exactly if the lowest usable address is a page border.
* If it is, all frames of all blocks handed out in runs that unlink blocks of the lists only are in
  usable memory exactly if the managed frames are: the pages from that of a region's start up to
  that of its end, the last one excluded.
* For that it is enough that regions start at page borders. -/
theorem frames_usable_iff (hlt : ∀ r ∈ usableRegions regions, r.start < 2 ^ 64)
    (hdis : (usableRegions regions).Pairwise MemoryRegion.Disjoint)
    (hnew : new regions offset mem = some a₀) :
    (∀ ops s, Run Sys.exec Sys.Allowed ⟨a₀, []⟩ ops s → ∀ a ∈ s.live, ∃ i,
        a.1 = frameAt (lowest (usableRegions regions)) i ∧
        (s.alloc.physToIdx a.1 = some i ↔ frameSize ∣ lowest (usableRegions regions))) ∧
    (frameSize ∣ lowest (usableRegions regions) →
      ((∀ x ∈ managedFrames (usableRegions regions),
          Backed (usableRegions regions) (lowest (usableRegions regions) + x * frameSize)) →
        (∀ ops s, Run Sys.exec (fun s op => s.Allowed op ∧ s.UnlinksListed op) ⟨a₀, []⟩ ops s →
          s.LiveBacked (usableRegions regions)) ∧
        (HalvesInRegions ((usableRegions regions).map MemoryRegion.floor) →
          ∀ ops s, Run Sys.exec Sys.Allowed ⟨a₀, []⟩ ops s →
            s.LiveBacked (usableRegions regions))) ∧
      ((∀ x ∈ managedFrames (usableRegions regions),
          lowest (usableRegions regions) + x * frameSize < 2 ^ 52 ∧
          lowest (usableRegions regions) + x * frameSize + offset < 2 ^ 64) →
        (∀ ops s, Run Sys.exec (fun s op => s.Allowed op ∧ s.UnlinksListed op) ⟨a₀, []⟩ ops s →
          s.LiveBacked (usableRegions regions)) →
        ∀ x ∈ managedFrames (usableRegions regions),
          Backed (usableRegions regions) (lowest (usableRegions regions) + x * frameSize))) ∧
    ((∀ r ∈ usableRegions regions, frameSize ∣ r.start) →
      ∀ x ∈ managedFrames (usableRegions regions),
        Backed (usableRegions regions) (lowest (usableRegions regions) + x * frameSize)) := by
  refine ⟨fun ops s hrun a ha => ?_, fun h => ?_, fun h x hx => backed_of_starts hlt h hx⟩
  · obtain ⟨hb, hf⟩ := named_of_new hnew hrun
    obtain ⟨i, hi⟩ := hf a ha
    exact ⟨i, hi, hi ▸ physToIdx_frameAt_iff hb⟩
  · obtain ⟨h', L, hstart⟩ := atStart_of_new hlt hdis hnew h
    have husable := usableFrames_floor h
    have hlow := lowest_floor h
    generalize usableRegions regions = us at *
    refine ⟨fun hall => ?_, fun hmap hall x hx => ?_⟩
    · have hG : ∀ x ∈ (layoutOf (us.map MemoryRegion.floor) offset h').usable,
          Backed us ((layoutOf (us.map MemoryRegion.floor) offset h').base + x * frameSize) := by
        simpa only [layoutOf, husable, hlow] using hall
      refine ⟨fun ops s hrun => ?_, fun hhalf ops s hrun => ?_⟩
      · obtain ⟨L', B, hs⟩ := hstart.inv.run_of_unlinksListed hrun
        exact hs.liveBacked hG
      · obtain ⟨L', B, hs⟩ := hstart.inv.run hhalf.asks hrun
        exact hs.liveBacked hG
    · have hmap' : (layoutOf (us.map MemoryRegion.floor) offset h').Mapped := by
        simp only [Layout.Mapped, layoutOf, husable, hlow]
        exact fun x hx _ => hmap x hx
      have hback := hstart.backed hmap' hall (husable ▸ hx)
      rwa [show (layoutOf (us.map MemoryRegion.floor) offset h').base = lowest us from hlow]
        at hback

/-- Two regions that share a page. -/
def sharedPage : List MemoryRegion :=
  [⟨0x100000, 0x102800, .usable⟩, ⟨0x102800, 0x104800, .usable⟩]

theorem frames_usable_iff_sharedPage : ∃ a₀ s, new sharedPage 0 (fun _ => 0) = some a₀ ∧
    Run Sys.exec (fun s op => s.Allowed op ∧ s.UnlinksListed op) ⟨a₀, []⟩ [.allocate 1] s ∧
    (0x102000, 1) ∈ s.live ∧ s.LiveBacked (usableRegions sharedPage) := by
  have hgo : ((new sharedPage 0 fun _ => 0).any fun a₀ =>
      (Sys.exec ⟨a₀, []⟩ (.allocate 1)).any fun (s : Sys) =>
        decide ((0x102000, 1) ∈ s.live)) = true := by decide +kernel
  simp only [Option.any_eq_true, decide_eq_true_eq] at hgo
  obtain ⟨a₀, hnew, s, hs, hlive⟩ := hgo
  have hrun : Run Sys.exec (fun s op => s.Allowed op ∧ s.UnlinksListed op) ⟨a₀, []⟩
      [.allocate 1] s := .cons ⟨trivial, trivial⟩ hs (.nil s)
  -- a byte of the shared page is in one region or the other
  have hall : ∀ x ∈ managedFrames (usableRegions sharedPage),
      Backed (usableRegions sharedPage) (lowest (usableRegions sharedPage) + x * frameSize) := by
    rintro x ⟨hx, -⟩ y h1 h2
    have hlow : lowest (usableRegions sharedPage) = 0x100000 := by decide
    have htracked : tracked (usableRegions sharedPage) = 4 := by decide
    rw [hlow, frameSize] at h1 h2
    rw [htracked] at hx
    rcases Nat.lt_or_ge y 0x102800 with hy | hy
    · exact ⟨⟨0x100000, 0x102800, .usable⟩, by decide, by dsimp only; omega, hy⟩
    · exact ⟨⟨0x102800, 0x104800, .usable⟩, by decide, hy, by dsimp only; omega⟩
  have hboth := (frames_usable_iff (by decide) (by decide) hnew).2.1 (by decide)
  exact ⟨a₀, s, hnew, hrun, hlive, (hboth.1 hall).1 _ s hrun⟩

/-- A region from the middle of a page to the middle of another. -/
def innerRegion : List MemoryRegion := [⟨0x100800, 0x102800, .usable⟩]

/-- A whole page, and a region from the middle of another page on. -/
def halfPage : List MemoryRegion :=
  [⟨0x100000, 0x101000, .usable⟩, ⟨0x102800, 0x104000, .usable⟩]

/-- **Frames that are not usable memory.**  Of a region from `0x100800` on, the page at `0x100000`
is handed out, and giving it back panics.  Of a region from `0x102800` on, after one that ends at a
page border, the page at `0x102000` is handed out. -/
theorem frames_unusable :
    (∃ a₀ a, new innerRegion 0 (fun _ => 0) = some a₀ ∧
      a₀.allocateFrameOrder 0 = some (some 0x100000, a) ∧
      ¬ Backed (usableRegions innerRegion) 0x100000 ∧
      a.deallocateFrameOrder 0x100000 0 = none) ∧
    ∃ a₀ a, new halfPage 0 (fun _ => 0) = some a₀ ∧
      a₀.allocateFrameOrder 1 = some (some 0x102000, a) ∧
      ¬ Backed (usableRegions halfPage) 0x102000 := by
  have hinner : ((new innerRegion 0 fun _ => 0).any fun a₀ =>
      (a₀.allocateFrameOrder 0).any fun r => r.1 == some 0x100000 &&
        (r.2.deallocateFrameOrder 0x100000 0).isNone) = true := by decide +kernel
  have hhalf : ((new halfPage 0 fun _ => 0).any fun a₀ =>
      (a₀.allocateFrameOrder 1).any fun r => r.1 == some 0x102000) = true := by decide +kernel
  simp only [Option.any_eq_true, Bool.and_eq_true, beq_iff_eq, Option.isNone_iff_eq_none]
    at hinner hhalf
  obtain ⟨a₀, hnew, ⟨r, a⟩, ha, rfl, hpanic⟩ := hinner
  obtain ⟨b₀, hnew', ⟨r', b⟩, hb, rfl⟩ := hhalf
  -- the first byte of either page is in no region
  have hno : ∀ rs : List MemoryRegion, ∀ p, Backed rs p → ∃ r ∈ rs, r.start ≤ p ∧ p < r.end_ :=
    fun rs p h => h p le_rfl (Nat.lt_add_of_pos_right (by decide))
  exact ⟨⟨a₀, a, hnew, ha, fun h => absurd (hno _ _ h) (by decide), hpanic⟩,
    b₀, b, hnew', hb, fun h => absurd (hno _ _ h) (by decide)⟩

end YontiOs.Buddy
