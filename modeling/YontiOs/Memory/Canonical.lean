import YontiOs.Memory.FrameSafety

/-!
# Memory/Canonical — the free lists are determined by the free frames

Over separated regions every free range is merged as far as its alignment allows, so the free blocks
are the maximal aligned ranges of free frames.  Two histories that leave the same frames free leave
the same blocks on every list; and when everything is given back these are the blocks of `new`
(`free_lists_of_free_frames`).
-/

namespace YontiOs.Buddy

open AlignedRange BuddyAllocator

variable {G : Layout} {s s' : Sys} {a₀ : BuddyAllocator} {L L' : ℕ → List ℕ} {B B' : List (ℕ × ℕ)}
  {k offset : ℕ} {regions : List MemoryRegion} {mem : Mem} {ops ops' : List Op}

/-- **The blocks on `free_lists[k]`**, which the links lead to from its head. -/
def BuddyAllocator.listed (s : BuddyAllocator) (k : ℕ) : Set ℕ := {i | ∃ n, s.nodeAt k n = some i}

/-- **The free frames**, whose bit is set. -/
def BuddyAllocator.free (s : BuddyAllocator) : Set ℕ := {x | s.bit x = true}

theorem Holds.listed_eq {Q : Set (ℕ × ℕ)} {a : BuddyAllocator} (h : Holds G Q a L B) :
    a.listed k = {i | (i, k) ∈ blocks L} :=
  Set.ext fun _ => h.member_iff

/-- Two pools of one layout with the same free frames have the same lists. -/
theorem Sys.Inv.listed_eq (h : s.Inv G Set.univ L B) (h' : s'.Inv G Set.univ L' B')
    (hfree : s.alloc.free = s'.alloc.free) : s.alloc.listed k = s'.alloc.listed k := by
  have hblocks : blocks L = blocks L' := h.holds.pool.eq_of_free_iff h'.holds.pool fun x => by
    rw [← h.holds.bits, ← h'.holds.bits]
    exact Set.ext_iff.mp hfree x
  rw [h.holds.listed_eq, h'.holds.listed_eq, hblocks]

/-- Only tracked frames are free. -/
theorem Sys.Inv.lt_of_mem_free {Q : Set (ℕ × ℕ)} {x : ℕ} (h : s.Inv G Q L B)
    (hx : x ∈ s.alloc.free) : x < G.total := by
  obtain ⟨b, hb, hbx⟩ := (h.holds.bits x).mp hx
  exact hbx.2.trans_le (h.holds.pool.free_fits b hb).le

/-- With nothing live all managed frames are free. -/
theorem Sys.Inv.free_eq {Q : Set (ℕ × ℕ)} (h : s.Inv G Q L B) (hlive : s.live = []) :
    s.alloc.free = {x | x ∈ G.usable ∧ x < G.total} := by
  obtain rfl : B = [] := List.map_eq_nil_iff.mp (h.live.symm.trans hlive)
  exact Set.ext fun x => (h.holds.bits x).trans h.holds.pool.free_iff_of_nil

/-- Over separated regions every state reached has all merged that can be. -/
theorem inv_univ_of_run (hal : ∀ r ∈ usableRegions regions, r.PageAligned)
    (hsep : (usableRegions regions).Pairwise MemoryRegion.Separated)
    (hnew : new regions offset mem = some a₀) :
    ∃ h, ∀ ops s, Run Sys.exec Sys.Allowed ⟨a₀, []⟩ ops s →
      ∃ L B, s.Inv (layoutOf (usableRegions regions) offset h) Set.univ L B := by
  obtain ⟨h, L₀, h₀, -⟩ := inv_of_new hal (hsep.imp MemoryRegion.Separated.disjoint) hnew
  rw [oneRegion_eq_univ hsep] at h₀
  exact ⟨h, fun ops s hrun => h₀.run (fun _ _ _ _ _ _ => trivial) hrun⟩

/-- **The lists are a function of the free frames**: two runs from one `new`, over usable regions
that keep a frame of distance, that end with the same frames free end with the same blocks on each
list.  With nothing live these are the blocks of `new`. -/
theorem free_lists_of_free_frames (hal : ∀ r ∈ usableRegions regions, r.PageAligned)
    (hsep : (usableRegions regions).Pairwise MemoryRegion.Separated)
    (hnew : new regions offset mem = some a₀)
    (hrun : Run Sys.exec Sys.Allowed ⟨a₀, []⟩ ops s)
    (hrun' : Run Sys.exec Sys.Allowed ⟨a₀, []⟩ ops' s') :
    (s.alloc.free = s'.alloc.free → ∀ k, s.alloc.listed k = s'.alloc.listed k) ∧
      (s.live = [] → ∀ k, s.alloc.listed k = a₀.listed k) := by
  obtain ⟨h, hinv⟩ := inv_univ_of_run hal hsep hnew
  obtain ⟨L₀, B₀, h₀⟩ := hinv [] _ (.nil _)
  obtain ⟨L, B, hs⟩ := hinv ops s hrun
  obtain ⟨L', B', hs'⟩ := hinv ops' s' hrun'
  exact ⟨fun hfree k => hs.listed_eq hs' hfree, fun hlive k =>
    hs.listed_eq h₀ ((hs.free_eq hlive).trans (h₀.free_eq rfl).symm)⟩

theorem free_lists_of_free_frames_apartRegions : ∃ a₀ s s' s'',
    new apartRegions 0 (fun _ => 0) = some a₀ ∧
    Run Sys.exec Sys.Allowed ⟨a₀, []⟩ [.allocate 0] s ∧
    Run Sys.exec Sys.Allowed ⟨a₀, []⟩ [.allocate 1, .allocate 0, .deallocate 0x100000 1] s' ∧
    Run Sys.exec Sys.Allowed ⟨a₀, []⟩ [.allocate 0, .deallocate 0x103000 0] s'' ∧
    s.alloc.free = s'.alloc.free ∧ (∀ k, s.alloc.listed k = s'.alloc.listed k) ∧
    s''.live = [] ∧ ∀ k, s''.alloc.listed k = a₀.listed k := by
  have hgo : ((new apartRegions 0 fun _ => 0).any fun a₀ =>
      (Sys.exec ⟨a₀, []⟩ (.allocate 0)).any fun s =>
      (Sys.exec ⟨a₀, []⟩ (.allocate 1)).any fun s₁ => (s₁.exec (.allocate 0)).any fun s₂ =>
      decide ((0x100000, 1) ∈ s₂.live) && (s₂.exec (.deallocate 0x100000 1)).any fun (s' : Sys) =>
      decide ((0x103000, 0) ∈ s.live) && (s.exec (.deallocate 0x103000 0)).any fun s'' =>
      decide (s''.live = []) && (List.range 4).all fun x => s.alloc.bit x == s'.alloc.bit x) =
      true := by
    decide +kernel
  simp only [Option.any_eq_true, Bool.and_eq_true, decide_eq_true_eq, List.all_eq_true,
    List.mem_range, beq_iff_eq] at hgo
  obtain ⟨a₀, hnew, s, hs, s₁, hs₁, s₂, hs₂, hlive, s', hs', hlive', s'', hs'', hnil, hbits⟩ := hgo
  have hrun : Run Sys.exec Sys.Allowed ⟨a₀, []⟩ [.allocate 0] s := .cons trivial hs (.nil s)
  have hrun' : Run Sys.exec Sys.Allowed ⟨a₀, []⟩
      [.allocate 1, .allocate 0, .deallocate 0x100000 1] s' :=
    .cons trivial hs₁ (.cons trivial hs₂ (.cons hlive hs' (.nil s')))
  have hrun'' : Run Sys.exec Sys.Allowed ⟨a₀, []⟩ [.allocate 0, .deallocate 0x103000 0] s'' :=
    .cons trivial hs (.cons hlive' hs'' (.nil s''))
  have hal : ∀ r ∈ usableRegions apartRegions, r.PageAligned := by decide
  have hsep : (usableRegions apartRegions).Pairwise MemoryRegion.Separated := by decide
  have hfree : s.alloc.free = s'.alloc.free := by
    obtain ⟨_, hinv⟩ := inv_univ_of_run hal hsep hnew
    have hlt : ∀ {ops t}, Run Sys.exec Sys.Allowed ⟨a₀, []⟩ ops t → ∀ x ∈ t.alloc.free, x < 4 := by
      intro ops t hrun x hx
      obtain ⟨L, B, ht⟩ := hinv ops t hrun
      have htotal : tracked (usableRegions apartRegions) = 4 := by decide
      exact htotal ▸ ht.lt_of_mem_free hx
    ext x
    by_cases hx : x < 4
    · exact iff_of_eq (congrArg (· = true) (hbits x hx))
    · exact iff_of_false (fun h => hx (hlt hrun x h)) fun h => hx (hlt hrun' x h)
  exact ⟨a₀, s, s', s'', hnew, hrun, hrun', hrun'', hfree,
    (free_lists_of_free_frames hal hsep hnew hrun hrun').1 hfree, hnil,
    (free_lists_of_free_frames hal hsep hnew hrun'' hrun).2 hnil⟩

end YontiOs.Buddy
