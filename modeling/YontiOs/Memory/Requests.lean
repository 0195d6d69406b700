import YontiOs.Memory.Accounting

/-!
# Memory/Requests — what a request for frames gets

A request looks at the heads of the lists only.  Over separated regions every free aligned range
lies in one listed block, so a request is refused just when no such range is free
(`allocate_complete`).

Blocks are aligned by their index, and index 0 is the lowest usable frame.  So a block that is
handed out is aligned in physical memory just when that frame is (`frames_aligned_iff`).
-/

namespace YontiOs.Buddy

open AlignedRange BuddyAllocator

variable {G : Layout} {Q : Set (ℕ × ℕ)} {s : Sys} {a₀ : BuddyAllocator} {L : ℕ → List ℕ}
  {B : List (ℕ × ℕ)} {k frame offset : ℕ} {regions : List MemoryRegion} {mem : Mem} {ops : List Op}

/-- An aligned range of `2 ^ k` frames is free. -/
def BuddyAllocator.HasRoom (a : BuddyAllocator) (k : ℕ) : Prop :=
  ∃ i, 2 ^ k ∣ i ∧ ∀ x, i ≤ x → x < i + 2 ^ k → x ∈ a.free

namespace Sys.Inv

/-- A free range is in a block of its order or more, and the other way round. -/
theorem hasRoom_iff (h : s.Inv G Set.univ L B) (hk : k ≤ maxOrder) :
    s.alloc.HasRoom k ↔ ∃ l, k ≤ l ∧ L l ≠ [] := by
  constructor
  · rintro ⟨i, hdvd, hfree⟩
    have hpos := Nat.two_pow_pos k
    have hlast := h.lt_of_mem_free (hfree (i + 2 ^ k - 1) (by omega) (by omega))
    have hfits : Fits maxOrder G.total (i, k) := ⟨hdvd, hk, by dsimp only; omega⟩
    obtain ⟨⟨j, l⟩, hj, h1, h2⟩ := h.holds.pool.maximal (i, k) trivial hfits fun x hx =>
      (h.holds.bits x).mp (hfree x hx.1 hx.2)
    have hle : 2 ^ k ≤ 2 ^ l := by
      dsimp only at h1 h2
      omega
    exact ⟨l, (Nat.pow_le_pow_iff_right (by decide)).mp hle, List.ne_nil_of_mem hj⟩
  · rintro ⟨l, hl, hne⟩
    obtain ⟨i, hi⟩ := List.exists_mem_of_ne_nil _ hne
    have hpow : 2 ^ k ∣ 2 ^ l := pow_dvd_pow 2 hl
    have hle : 2 ^ k ≤ 2 ^ l := Nat.le_of_dvd (Nat.two_pow_pos l) hpow
    refine ⟨i, hpow.trans (h.holds.pool.free_fits (i, l) hi).dvd, fun x h1 h2 => ?_⟩
    exact (h.holds.bits x).mpr ⟨(i, l), hi, h1, h2.trans_le (Nat.add_le_add_left hle i)⟩

/-- **A request is refused when it has no room**, and then nothing changes. -/
theorem refused_iff (h : s.Inv G Set.univ L B) (hk : k ≤ maxOrder) :
    (∃ a, s.alloc.allocateFrameOrder k = some (none, a)) ↔ ¬ s.alloc.HasRoom k := by
  rw [h.holds.allocateFrameOrder_eq_none_iff h.count, h.hasRoom_iff hk]
  push Not
  rfl

theorem eq_of_refused (h : s.Inv G Q L B) {a : BuddyAllocator}
    (ha : s.alloc.allocateFrameOrder k = some (none, a)) : a = s.alloc := by
  rcases (h.holds.allocateFrameOrder h.count).post _ ha with ⟨heq, -⟩ | ⟨_, _, hsome, -⟩
  · exact (Prod.ext_iff.mp heq).2
  · cases hsome

/-- **A block handed out is aligned as the first frame is.** -/
theorem dvd_frame_iff (h : s.Inv G Q L B) {a : BuddyAllocator}
    (ha : s.alloc.allocateFrameOrder k = some (some frame, a)) :
    frameSize * 2 ^ k ∣ frame ↔ frameSize * 2 ^ k ∣ G.base := by
  rcases (h.holds.allocateFrameOrder h.count).post _ ha with ⟨heq, -⟩ | ⟨i, _, hframe, hnext, -⟩
  · cases (Prod.ext_iff.mp heq).1
  · obtain rfl : frame = G.base + i * frameSize := Option.some.inj hframe
    have hdvd : 2 ^ k ∣ i := (hnext.pool.used_fits (i, k) List.mem_cons_self).dvd
    exact (Nat.dvd_add_iff_left (Nat.mul_comm i _ ▸ Nat.mul_dvd_mul_left _ hdvd)).symm

end Sys.Inv

/-- **Allocation is complete**: over usable regions that keep a frame of distance, in every state
reached, a request of order `k` is refused exactly if no aligned range of `2 ^ k` frames is free, a
refusal changes nothing, and where the addresses exist every request returns. -/
theorem allocate_complete (hal : ∀ r ∈ usableRegions regions, r.PageAligned)
    (hsep : (usableRegions regions).Pairwise MemoryRegion.Separated)
    (hnew : new regions offset mem = some a₀)
    (hrun : Run Sys.exec Sys.Allowed ⟨a₀, []⟩ ops s) (hk : k ≤ maxOrder) :
    ((∃ a, s.alloc.allocateFrameOrder k = some (none, a)) ↔
        ¬ ∃ i, 2 ^ k ∣ i ∧ ∀ x, i ≤ x → x < i + 2 ^ k → x ∈ s.alloc.free) ∧
      (∀ a, s.alloc.allocateFrameOrder k = some (none, a) → a = s.alloc) ∧
      (Buildable (usableRegions regions) offset → ∃ r, s.alloc.allocateFrameOrder k = some r) := by
  obtain ⟨h, hinv⟩ := inv_univ_of_run hal hsep hnew
  obtain ⟨L, B, hs⟩ := hinv ops s hrun
  exact ⟨hs.refused_iff hk, fun a ha => hs.eq_of_refused ha, fun hb =>
    (hs.holds.allocateFrameOrder hs.count).returns (hb.mapped h)⟩

/-- With the two frames of the first region taken, no two frames are left side by side. -/
theorem allocate_complete_apartRegions : ∃ a₀ s, new apartRegions 0 (fun _ => 0) = some a₀ ∧
    Run Sys.exec Sys.Allowed ⟨a₀, []⟩ [.allocate 1] s ∧
    s.alloc.allocateFrameOrder 1 = some (none, s.alloc) ∧
    ¬ ∃ i, 2 ^ 1 ∣ i ∧ ∀ x, i ≤ x → x < i + 2 ^ 1 → x ∈ s.alloc.free := by
  have hgo : ((new apartRegions 0 fun _ => 0).any fun a₀ =>
      (Sys.exec ⟨a₀, []⟩ (.allocate 1)).any fun (s : Sys) =>
        (s.alloc.allocateFrameOrder 1).any fun r => r.1.isNone) = true := by decide +kernel
  simp only [Option.any_eq_true, Option.isNone_iff_eq_none] at hgo
  obtain ⟨a₀, hnew, s, hs, ⟨r, a⟩, ha, rfl⟩ := hgo
  have hrun : Run Sys.exec Sys.Allowed ⟨a₀, []⟩ [.allocate 1] s := .cons trivial hs (.nil s)
  obtain ⟨hroom, hsame, -⟩ := allocate_complete (k := 1) (by decide) (by decide) hnew
    hrun (by decide)
  exact ⟨a₀, s, hnew, hrun, by rw [ha, hsame a ha], hroom.mp ⟨a, ha⟩⟩

/-! ## Alignment -/

/-- **When blocks are aligned in physical memory**, over disjoint page-aligned usable regions: in
all states of all runs that unlink blocks of the lists only, a block of order `k` is handed out at a
multiple of its size exactly if the lowest usable address is one.  Where halves are in regions, all
runs are of that kind. -/
theorem frames_aligned_iff (hal : ∀ r ∈ usableRegions regions, r.PageAligned)
    (hdis : (usableRegions regions).Pairwise MemoryRegion.Disjoint)
    (hnew : new regions offset mem = some a₀) :
    (∀ ops s, Run Sys.exec (fun s op => s.Allowed op ∧ s.UnlinksListed op) ⟨a₀, []⟩ ops s →
        ∀ k frame a, s.alloc.allocateFrameOrder k = some (some frame, a) →
          (frameSize * 2 ^ k ∣ frame ↔ frameSize * 2 ^ k ∣ lowest (usableRegions regions))) ∧
      (HalvesInRegions (usableRegions regions) →
        ∀ ops s, Run Sys.exec Sys.Allowed ⟨a₀, []⟩ ops s →
          ∀ k frame a, s.alloc.allocateFrameOrder k = some (some frame, a) →
            (frameSize * 2 ^ k ∣ frame ↔ frameSize * 2 ^ k ∣ lowest (usableRegions regions))) := by
  obtain ⟨h, L₀, h₀, -⟩ := inv_of_new hal hdis hnew
  refine ⟨fun ops s hrun k frame a ha => ?_, fun hhalf ops s hrun k frame a ha => ?_⟩
  · obtain ⟨L, B, hs⟩ := h₀.run_of_unlinksListed hrun
    exact hs.dvd_frame_iff ha
  · obtain ⟨L, B, hs⟩ := h₀.run hhalf.asks hrun
    exact hs.dvd_frame_iff ha

theorem frames_aligned_iff_evenRegions : ∃ a₀ frame a, new evenRegions 0 (fun _ => 0) = some a₀ ∧
    a₀.allocateFrameOrder 1 = some (some frame, a) ∧ frameSize * 2 ^ 1 ∣ frame := by
  have hgo : ((new evenRegions 0 fun _ => 0).any fun a₀ =>
      (a₀.allocateFrameOrder 1).any fun r => r.1.isSome) = true := by decide +kernel
  simp only [Option.any_eq_true, Option.isSome_iff_exists] at hgo
  obtain ⟨a₀, hnew, ⟨r, a⟩, ha, frame, rfl⟩ := hgo
  have hboth := frames_aligned_iff (by decide) (by decide) hnew
  exact ⟨a₀, frame, a, hnew, ha,
    (hboth.2 halvesInRegions_evenRegions [] ⟨a₀, []⟩ (.nil _) 1 frame a ha).mpr (by decide)⟩

/-- One usable region of two frames, from an odd frame on. -/
def oddRegions : List MemoryRegion := [⟨0x101000, 0x103000, .usable⟩]

/-- Touching regions of one frame and of three, the upper one first. -/
def upperFirstRegions : List MemoryRegion :=
  [⟨0x103000, 0x104000, .usable⟩, ⟨0x100000, 0x103000, .usable⟩]

/-- **A block that is not aligned in physical memory**: two frames at `0x101000`.  Over touching
regions from an aligned address on, the defect of the merge loop puts frame 3 on the list of order
1, which then hands out two frames at `0x103000`. -/
theorem frames_misaligned :
    (∃ a₀ a, new oddRegions 0 (fun _ => 0) = some a₀ ∧
      a₀.allocateFrameOrder 1 = some (some 0x101000, a) ∧ ¬ frameSize * 2 ^ 1 ∣ 0x101000) ∧
    ∃ a₀ s a, new upperFirstRegions 0 (fun _ => 0) = some a₀ ∧
      Run Sys.exec Sys.Allowed ⟨a₀, []⟩ [.allocate 1, .deallocate 0x100000 1] s ∧
      s.alloc.allocateFrameOrder 1 = some (some 0x103000, a) ∧ ¬ frameSize * 2 ^ 1 ∣ 0x103000 := by
  have hodd : ((new oddRegions 0 fun _ => 0).any fun a₀ =>
      (a₀.allocateFrameOrder 1).any fun r => r.1 == some 0x101000) = true := by decide +kernel
  have htouch : ((new upperFirstRegions 0 fun _ => 0).any fun a₀ =>
      (Sys.exec ⟨a₀, []⟩ (.allocate 1)).any fun s₁ => decide ((0x100000, 1) ∈ s₁.live) &&
      (s₁.exec (.deallocate 0x100000 1)).any fun (s : Sys) =>
      (s.alloc.allocateFrameOrder 1).any fun r => r.1 == some 0x103000) = true := by decide +kernel
  simp only [Option.any_eq_true, Bool.and_eq_true, decide_eq_true_eq, beq_iff_eq] at hodd htouch
  obtain ⟨a₀, hnew, ⟨r, a⟩, ha, rfl⟩ := hodd
  obtain ⟨b₀, hnew', s₁, hs₁, hlive, s, hs, ⟨r', b⟩, hb, rfl⟩ := htouch
  exact ⟨⟨a₀, a, hnew, ha, by decide⟩,
    b₀, s, b, hnew', .cons trivial hs₁ (.cons hlive hs (.nil s)), hb, by decide⟩

end YontiOs.Buddy
