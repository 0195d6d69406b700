import YontiOs.Memory.FrameClient

/-!
# Memory/FrameSafety — separated regions: what holds in every state of every run

When the usable regions keep a frame of distance, usable frames in a row are in one region
(`exists_region`).  So `new` merges every range of free frames as far as its alignment allows, and
all that the allocator's users rely on holds in every state of every run (`frames_safe`).
-/

namespace YontiOs.Buddy

open AlignedRange BuddyAllocator

variable {s : Sys} {a₀ : BuddyAllocator} {n x offset : ℕ} {us regions : List MemoryRegion}
  {mem : Mem} {ops : List Op}

/-- At least one frame lies between two regions. -/
def MemoryRegion.Separated (r r' : MemoryRegion) : Prop :=
  r.end_ + frameSize ≤ r'.start ∨ r'.end_ + frameSize ≤ r.start

instance : DecidableRel MemoryRegion.Separated := fun _ _ => inferInstanceAs (Decidable (_ ∨ _))

instance : Std.Symm MemoryRegion.Separated := ⟨fun _ _ => Or.symm⟩

theorem MemoryRegion.Separated.disjoint {r r' : MemoryRegion} (h : r.Separated r') :
    r.Disjoint r' := by
  simp only [MemoryRegion.Separated, MemoryRegion.Disjoint] at *
  omega

/-- Usable frames in a row are in one region, when regions keep their distance. -/
theorem exists_region (hsep : us.Pairwise MemoryRegion.Separated)
    (h : ∀ y, x ≤ y → y ≤ x + n → y ∈ usableFrames us) :
    ∃ r ∈ us, r.Has (lowest us + x * frameSize) (n + 1) := by
  induction n with
  | zero => exact (h x le_rfl le_rfl).2
  | succ n ih =>
    obtain ⟨r, hr, h1, h2⟩ := ih fun y hy hy' => h y hy (by omega)
    obtain ⟨-, r', hr', h3, h4⟩ := h (x + (n + 1)) (by omega) le_rfl
    refine ⟨r, hr, h1, ?_⟩
    simp only [Nat.add_mul, Nat.one_mul] at h2 h3 h4 ⊢
    by_cases hrr : r = r'
    · subst hrr
      omega
    · -- the next frame would be in a region that touches this one
      have hoff := hsep.forall hr hr' hrr
      simp only [MemoryRegion.Separated] at hoff
      omega

theorem oneRegion_eq_univ (hsep : us.Pairwise MemoryRegion.Separated) :
    oneRegion us = Set.univ := by
  refine Set.eq_univ_of_forall fun c hc => ?_
  have hpos := Nat.two_pow_pos c.2
  obtain ⟨n, hn⟩ : ∃ n, 2 ^ c.2 = n + 1 := ⟨2 ^ c.2 - 1, by omega⟩
  rw [InRegion, hn]
  exact exists_region hsep fun y h1 h2 => hc y ⟨h1, by omega⟩

/-- The frames of a free block and of a live one have no address in common. -/
def Clear (s : Sys) (b a : ℕ × ℕ) : Prop :=
  s.alloc.basePhys + (b.1 + 2 ^ b.2) * frameSize ≤ a.1 ∨
    a.1 + 2 ^ a.2 * frameSize ≤ s.alloc.basePhys + b.1 * frameSize

/-- Two live blocks have no address in common. -/
def Apart (a a' : ℕ × ℕ) : Prop :=
  a.1 + 2 ^ a.2 * frameSize ≤ a'.1 ∨ a'.1 + 2 ^ a'.2 * frameSize ≤ a.1

/-- **A safe state**, `L` being the free lists. -/
structure Safe (us : List MemoryRegion) (s : Sys) (L : ℕ → List ℕ) : Prop where
  head : ∀ k, s.alloc.freeLists k = (L k).head?
  linked : ∀ k, DList.Linked s.alloc.nextOf s.alloc.prevOf none (L k)
  nodup : ∀ k, (L k).Nodup
  aligned : ∀ k, ∀ i ∈ L k, k ≤ maxOrder ∧ 2 ^ k ∣ i ∧ i + 2 ^ k ≤ s.alloc.totalFrames
  free_off : ∀ b ∈ blocks L, ∀ c ∈ blocks L, b ≠ c → Off b c
  free_clear : ∀ b ∈ blocks L, ∀ a ∈ s.live, Clear s b a
  bitmap : ∀ x, s.alloc.bit x = true ↔ ∃ b ∈ blocks L, Has b x
  merged : ∀ k < maxOrder, ∀ i ∈ L k, buddy i k ∉ L k
  count : s.alloc.allocatedCount = (s.live.map fun a => 2 ^ a.2).sum
  live_usable : ∀ a ∈ s.live, ∃ r ∈ us, r.Has a.1 (2 ^ a.2)
  live_apart : s.live.Pairwise Apart

theorem Sys.Inv.safe {L : ℕ → List ℕ} {B : List (ℕ × ℕ)} {h : frameSize ∣ lowest us}
    (hs : s.Inv (layoutOf us offset h) (oneRegion us) L B)
    (hsep : us.Pairwise MemoryRegion.Separated) : Safe us s L := by
  have hall : ∀ c, c ∈ oneRegion us := fun c => oneRegion_eq_univ hsep ▸ Set.mem_univ c
  have hbase : s.alloc.basePhys = lowest us := hs.holds.base_eq
  refine ⟨hs.holds.lists.head, hs.holds.lists.table.linked, hs.holds.lists.table.nodup,
    fun k i hi => ?_,
    hs.holds.pool.free_off, fun b hb a ha => ?_, hs.holds.bits, fun k hk i hi => ?_, ?_,
    fun a ha => ?_, ?_⟩
  · have hfit := hs.holds.pool.free_fits (i, k) hi
    exact ⟨hfit.order_le, hfit.dvd, hs.holds.total_eq ▸ hfit.le⟩
  · rw [hs.live] at ha
    obtain ⟨c, hc, rfl⟩ := List.mem_map.mp ha
    have hoff := hs.holds.pool.free_used b hb c hc
    simp only [Clear, Layout.place, layoutOf, hbase, Off, frameSize] at *
    omega
  · exact hs.holds.pool.buddy_notMem hk (hall _) hi
  · rw [hs.count, hs.live, List.map_map]
    rfl
  · rw [hs.live] at ha
    obtain ⟨c, hc, rfl⟩ := List.mem_map.mp ha
    exact hall c fun x hx => hs.holds.mem_usable hc hx
  · rw [hs.live, List.pairwise_map]
    refine hs.holds.pool.used_off.imp fun {b c} hoff => ?_
    simp only [Apart, Layout.place, layoutOf, Off, frameSize] at *
    omega

/-- **Runs of the frame allocator are safe**, over usable regions that keep a frame of distance:
every state reached is safe, and no call panics where the addresses exist. -/
theorem frames_safe (hal : ∀ r ∈ usableRegions regions, r.PageAligned)
    (hsep : (usableRegions regions).Pairwise MemoryRegion.Separated)
    (hnew : new regions offset mem = some a₀)
    (hrun : Run Sys.exec Sys.Allowed ⟨a₀, []⟩ ops s) :
    (∃ L, Safe (usableRegions regions) s L) ∧
      (Buildable (usableRegions regions) offset → ∀ op, s.Allowed op →
        ∃ s', s.exec op = some s') := by
  obtain ⟨h, L₀, h₀, -⟩ := inv_of_new hal (hsep.imp MemoryRegion.Separated.disjoint) hnew
  have hQ : (layoutOf (usableRegions regions) offset h).Asks (oneRegion (usableRegions regions)) :=
    fun i k _ _ _ _ => oneRegion_eq_univ hsep ▸ Set.mem_univ (i, k)
  obtain ⟨L, B, hs⟩ := h₀.run hQ hrun
  exact ⟨⟨L, hs.safe hsep⟩, fun hb op hok => (hs.exec (.inl hQ) hok).returns (hb.mapped h)⟩

/-- Two usable regions of two frames and of one, a frame apart. -/
def apartRegions : List MemoryRegion :=
  [⟨0x100000, 0x102000, .usable⟩, ⟨0x102000, 0x103000, .bootloader⟩, ⟨0x103000, 0x104000, .usable⟩]

theorem buildable_apartRegions : Buildable (usableRegions apartRegions) 0 := by
  refine ⟨by decide, by decide, fun h x _ hx => ?_⟩
  have htotal : tracked (usableRegions apartRegions) = 4 := by decide
  have hbase : lowest (usableRegions apartRegions) = 0x100000 := by decide
  simp only [layoutOf, htotal, hbase, frameSize] at hx ⊢
  omega

theorem frames_safe_apartRegions : ∃ a₀ s, new apartRegions 0 (fun _ => 0) = some a₀ ∧
    Run Sys.exec Sys.Allowed ⟨a₀, []⟩ [.allocate 1, .allocate 0, .deallocate 0x100000 1] s ∧
    (∃ L, Safe (usableRegions apartRegions) s L) ∧ ∀ op, s.Allowed op →
      ∃ s', s.exec op = some s' := by
  have hgo : ((new apartRegions 0 fun _ => 0).any fun a₀ =>
      (Sys.exec ⟨a₀, []⟩ (.allocate 1)).any fun s₁ => (s₁.exec (.allocate 0)).any fun s₂ =>
        decide ((0x100000, 1) ∈ s₂.live) && (s₂.exec (.deallocate 0x100000 1)).isSome) = true := by
    decide +kernel
  simp only [Option.any_eq_true, Bool.and_eq_true, decide_eq_true_eq, Option.isSome_iff_exists]
    at hgo
  obtain ⟨a₀, hnew, s₁, hs₁, s₂, hs₂, hlive, s, hs⟩ := hgo
  have hrun : Run Sys.exec Sys.Allowed ⟨a₀, []⟩
      [.allocate 1, .allocate 0, .deallocate 0x100000 1] s :=
    .cons trivial hs₁ (.cons trivial hs₂ (.cons hlive hs (.nil s)))
  obtain ⟨hsafe, hgoes⟩ := frames_safe (by decide) (by decide) hnew hrun
  exact ⟨a₀, s, hnew, hrun, hsafe, hgoes buildable_apartRegions⟩

end YontiOs.Buddy
