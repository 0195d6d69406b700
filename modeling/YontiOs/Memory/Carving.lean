import YontiOs.Memory.FramePool

/-!
# Memory/Carving — how `new` cuts the usable regions into blocks

`new` marks the frames of every usable region and then carves each region from its start: the
largest block that is aligned and fits, again and again.  So an aligned range inside one region ends
up inside one block (`Carving.carve`), and that is all the merging there is: ranges across two
adjacent regions are not joined.  `new_holds` is the pool it leaves behind.
-/

namespace YontiOs.Buddy

open AlignedRange BuddyAllocator

variable {s s' : BuddyAllocator} {L : ℕ → List ℕ} {G : Layout} {C C' : Set ℕ} {R R' : Set (ℕ × ℕ)}
  {g : Prop} {i k l n x p d pos stop : ℕ} {r : MemoryRegion} {us pre regions : List MemoryRegion}

/-! ## The order of a carved block -/

/-- The largest order up to `n` that `pos` is aligned for. -/
theorem alignedOrder_spec (pos n : ℕ) : 2 ^ alignedOrder pos n ∣ pos ∧ alignedOrder pos n ≤ n ∧
    ∀ l ≤ n, 2 ^ l ∣ pos → l ≤ alignedOrder pos n := by
  induction n with
  | zero => exact ⟨one_dvd pos, le_rfl, fun l hl _ => hl⟩
  | succ n ih =>
    rw [alignedOrder]
    split_ifs with h
    · exact ⟨isAlignedForOrder_iff.mp h, le_rfl, fun l hl _ => hl⟩
    · refine ⟨ih.1, ih.2.1.trans (Nat.le_succ n), fun l hl hd => ih.2.2 l ?_ hd⟩
      rcases Nat.le_succ_iff.mp hl with hl | rfl
      · exact hl
      · exact absurd (isAlignedForOrder_iff.mpr hd) h

theorem le_floorLog2_iff (hx : x ≠ 0) : k ≤ floorLog2 x ↔ 2 ^ k ≤ x := by
  rw [floorLog2, if_neg hx, Nat.le_log2 hx]

/-- **The block carved at `pos`** fits, and no larger aligned block does. -/
theorem carveOrder_spec (h : pos < stop) : 2 ^ carveOrder pos stop ∣ pos ∧
    carveOrder pos stop ≤ maxOrder ∧ pos + 2 ^ carveOrder pos stop ≤ stop ∧
    ∀ l ≤ maxOrder, 2 ^ l ∣ pos → pos + 2 ^ l ≤ stop → l ≤ carveOrder pos stop := by
  have hne : stop - pos ≠ 0 := by omega
  obtain ⟨hd, hle, hmax⟩ := alignedOrder_spec pos (min maxOrder (floorLog2 (stop - pos)))
  have hfit := (le_floorLog2_iff hne).mp (hle.trans (min_le_right _ _))
  refine ⟨hd, hle.trans (min_le_left _ _), ?_, fun l hl hdl hfl => hmax l (le_min hl ?_) hdl⟩
  · rw [carveOrder]
    omega
  · exact (le_floorLog2_iff hne).mpr (by omega)

/-- A range in the rest of the region that starts inside the carved block is inside it. -/
theorem inside_carved {c : ℕ × ℕ} (h : pos < stop) (hc : Fits maxOrder n c) (h1 : pos ≤ c.1)
    (h2 : c.1 < pos + 2 ^ carveOrder pos stop) (h3 : c.1 + 2 ^ c.2 ≤ stop) :
    Inside c (pos, carveOrder pos stop) := by
  obtain ⟨hd, -, -, hmax⟩ := carveOrder_spec h
  have hpos := Nat.two_pow_pos c.2
  rcases Nat.le_total c.2 (carveOrder pos stop) with hle | hle
  · rcases nested_or_disjoint hc.dvd hd hle with hin | hin | hin
    · exact hin
    · omega
    · omega
  · -- a larger range would start where the block does, and would have been carved instead
    rcases nested_or_disjoint hd hc.dvd hle with hin | hin | hin
    · obtain rfl : pos = c.1 := by omega
      have hord := hmax c.2 hc.order_le hc.dvd h3
      rw [← le_antisymm hord hle]
      exact ⟨le_rfl, le_rfl⟩
    · omega
    · omega

/-! ## One region -/

/-- **The state while carving**: the frames of `C` are carved, the blocks are ranges of `R`, and
each aligned range of `R` is inside one of them. -/
structure Carving (G : Layout) (s : BuddyAllocator) (L : ℕ → List ℕ) (C : Set ℕ)
    (R : Set (ℕ × ℕ)) : Prop where
  lists : Lists s L
  fits : ∀ b ∈ blocks L, Fits maxOrder G.total b
  off : ∀ b ∈ blocks L, ∀ c ∈ blocks L, b ≠ c → Off b c
  cover : ∀ x, x ∈ C ↔ Free (blocks L) x
  within : ∀ b ∈ blocks L, b ∈ R
  inside : ∀ c ∈ R, Fits maxOrder G.total c → ∃ b ∈ blocks L, Inside c b
  bits : ∀ x, s.bit x = true ↔ x ∈ G.usable
  total_eq : s.totalFrames = G.total
  base_eq : s.basePhys = G.base
  offset_eq : s.physMemOffset = G.offset
  count_eq : s.allocatedCount = 0
  aligned : ∀ x ∈ C, 8 ∣ G.base + G.offset

namespace Carving

theorem congr (h : Carving G s L C R) (hC : ∀ x, x ∈ C' ↔ x ∈ C)
    (hR : ∀ c, Fits maxOrder G.total c → (c ∈ R' ↔ c ∈ R)) : Carving G s L C' R' where
  lists := h.lists
  fits := h.fits
  off := h.off
  cover x := (hC x).trans (h.cover x)
  within b hb := (hR b (h.fits b hb)).mpr (h.within b hb)
  inside c hc hfit := h.inside c ((hR c hfit).mp hc) hfit
  bits := h.bits
  total_eq := h.total_eq
  base_eq := h.base_eq
  offset_eq := h.offset_eq
  count_eq := h.count_eq
  aligned x hx := h.aligned x ((hC x).mp hx)

/-- One more block. -/
theorem insertFree (h : Carving G s L C R) (hb : Fits maxOrder G.total (i, k))
    (hU : ∀ x, Has (i, k) x → x ∈ G.usable ∧ x ∉ C) :
    Returns (G.Mapped ∧ 8 ∣ G.base + G.offset) (s.insertFree i k) fun s' =>
      ∃ L', Carving G s' L' (C ∪ {x | Has (i, k) x}) (R ∪ {c | Inside c (i, k)}) := by
  have hle : i + 2 ^ k ≤ s.totalFrames := h.total_eq ▸ hb.le
  have hself := has_self (i, k)
  by_cases hi : s.Mapped i
  · obtain ⟨s', hs', hkeep, hl, hbit⟩ := h.lists.insertFree hb.dvd hle
      (fun ⟨j, hj⟩ => (hU i hself).2 ((h.cover i).mpr ⟨(i, j), hj, has_self _⟩)) hi
    have hoff : ∀ b ∈ blocks L, Off b (i, k) := fun b hb => off_of_not_has fun x hx hx' =>
      (hU x hx').2 ((h.cover x).mpr ⟨b, hb, hx⟩)
    refine .of_eq hs' ⟨_, hl, ?_, ?_, fun x => ?_, ?_, ?_, fun x => ?_,
      hkeep.total.trans h.total_eq,
      hkeep.base.trans h.base_eq, hkeep.offset.trans h.offset_eq, hkeep.count.trans h.count_eq,
      fun _ _ => by rw [← h.base_eq, ← h.offset_eq, ← dvd_addr_iff]; exact hi.2⟩
    · rw [blocks_push]
      rintro b (rfl | hb')
      · exact hb
      · exact h.fits b hb'
    · rw [blocks_push]
      rintro b (rfl | hb') c (rfl | hc) hne
      · exact absurd rfl hne
      · exact (hoff c hc).symm
      · exact hoff b hb'
      · exact h.off b hb' c hc hne
    · rw [blocks_push, Pool.free_insert, ← h.cover x]
      exact or_comm
    · rw [blocks_push]
      rintro b (rfl | hb')
      · exact .inr ⟨le_rfl, le_rfl⟩
      · exact .inl (h.within b hb')
    · rw [blocks_push]
      rintro c (hc | hc) hfit
      · obtain ⟨b, hb', hin⟩ := h.inside c hc hfit
        exact ⟨b, .inr hb', hin⟩
      · exact ⟨(i, k), .inl rfl, hc⟩
    · rw [hbit]
      split_ifs with hx
      · exact iff_of_true rfl (hU x hx).1
      · exact h.bits x
  · refine ⟨fun s' hs' => absurd (mapped_of_insertFree (hle.trans h.lists.tracked) hs') hi,
      fun ⟨hmap, h8⟩ => absurd ?_ hi⟩
    rw [Mapped, dvd_addr_iff, addr, h.base_eq, h.offset_eq]
    exact ⟨(hmap i (hU i hself).1 (hself.2.trans_le hb.le)).2, h8⟩

/-- An exhausted region has neither frames nor ranges left. -/
theorem exhausted (h : Carving G s L C R) (hpos : stop ≤ pos) : Carving G s L
    (C ∪ {x | pos ≤ x ∧ x < stop}) (R ∪ {c | pos ≤ c.1 ∧ c.1 + 2 ^ c.2 ≤ stop}) := by
  refine h.congr (fun x => ?_) ?_
  · rw [Set.mem_union, or_iff_left]
    rintro ⟨h1, h2⟩
    omega
  · intro c _
    rw [Set.mem_union, or_iff_left]
    rintro ⟨h1, h2⟩
    have := Nat.two_pow_pos c.2
    omega

/-- The first block of a region and the rest of it are the region. -/
theorem joined {o : ℕ} (h : Carving G s L
      (C ∪ {x | Has (pos, o) x} ∪ {x | pos + 2 ^ o ≤ x ∧ x < stop})
      (R ∪ {c | Inside c (pos, o)} ∪ {c | pos + 2 ^ o ≤ c.1 ∧ c.1 + 2 ^ c.2 ≤ stop}))
    (hfit : pos + 2 ^ o ≤ stop)
    (hin : ∀ c, Fits maxOrder G.total c → pos ≤ c.1 → c.1 < pos + 2 ^ o →
      c.1 + 2 ^ c.2 ≤ stop → Inside c (pos, o)) : Carving G s L
    (C ∪ {x | pos ≤ x ∧ x < stop}) (R ∪ {c | pos ≤ c.1 ∧ c.1 + 2 ^ c.2 ≤ stop}) := by
  have hpow := Nat.two_pow_pos o
  refine h.congr (fun x => ?_) ?_
  · simp only [Set.mem_union, Set.mem_ofPred_eq, Has, or_assoc]
    refine or_congr_right ?_
    omega
  · intro c hcfit
    simp only [Set.mem_union, Set.mem_ofPred_eq, or_assoc]
    refine or_congr_right ⟨?_, ?_⟩
    · rintro ⟨h1, h2⟩
      rcases Nat.lt_or_ge c.1 (pos + 2 ^ o) with hlow | hhigh
      · exact .inl (hin c hcfit h1 hlow h2)
      · exact .inr ⟨hhigh, h2⟩
    · rintro (⟨h1, h2⟩ | ⟨h1, h2⟩)
      · exact ⟨h1, h2.trans hfit⟩
      · exact ⟨by omega, h2⟩

/-- **The carving loop** covers the rest of a region, each aligned range of it by one block. -/
theorem carve (h : Carving G s L C R) (hstop : stop ≤ G.total)
    (hU : ∀ x, pos ≤ x → x < stop → x ∈ G.usable ∧ x ∉ C) (hd : stop - pos ≤ d) :
    Returns (G.Mapped ∧ 8 ∣ G.base + G.offset) (s.carve pos stop d) fun s' => ∃ L', Carving G s' L'
      (C ∪ {x | pos ≤ x ∧ x < stop}) (R ∪ {c | pos ≤ c.1 ∧ c.1 + 2 ^ c.2 ≤ stop}) := by
  induction d generalizing s L C R pos with
  | zero => exact .of_eq rfl ⟨L, h.exhausted (by omega)⟩
  | succ d ih =>
    rw [BuddyAllocator.carve]
    split_ifs with hlt
    · obtain ⟨hdvd, hord, hfit, -⟩ := carveOrder_spec hlt
      have hin : ∀ c, Fits maxOrder G.total c → pos ≤ c.1 → c.1 < pos + 2 ^ carveOrder pos stop →
          c.1 + 2 ^ c.2 ≤ stop → Inside c (pos, carveOrder pos stop) :=
        fun c hc => inside_carved hlt hc
      dsimp only
      generalize carveOrder pos stop = o at *
      have hpow := Nat.two_pow_pos o
      have hblock : ∀ x, Has (pos, o) x → x ∈ G.usable ∧ x ∉ C := fun x hx =>
        hU x hx.1 (hx.2.trans_le hfit)
      have hfree : s.isFree pos = some true := by
        have htotal := h.lists.tracked
        rw [h.total_eq] at htotal
        rw [isFree_eq (by omega), (h.bits pos).mpr (hU pos le_rfl hlt).1]
      simp only [hfree, Option.bind_eq_bind, Option.bind_some, if_true]
      refine (h.insertFree ⟨hdvd, hord, hfit.trans hstop⟩ hblock).bind ?_
      rintro s₁ ⟨L₁, h₁⟩
      refine (ih h₁ (fun x h1 h2 => ⟨(hU x (by omega) h2).1, ?_⟩) (by omega)).mono ?_
      · rintro (hx | hx)
        · exact (hU x (by omega) h2).2 hx
        · have := hx.2
          dsimp only at this
          omega
      · rintro s₂ ⟨L₂, h₂⟩
        exact ⟨L₂, h₂.joined hfit hin⟩
    · exact .of_eq rfl ⟨L, h.exhausted (by omega)⟩

end Carving

/-! ## The regions -/

/-- The `n` frames from the physical address `p` on are in the region. -/
def MemoryRegion.Has (r : MemoryRegion) (p n : ℕ) : Prop :=
  r.start ≤ p ∧ p + n * frameSize ≤ r.end_

instance (r : MemoryRegion) (p n : ℕ) : Decidable (r.Has p n) := inferInstanceAs (Decidable (_ ∧ _))

/-- A region from one frame boundary to another. -/
structure MemoryRegion.PageAligned (r : MemoryRegion) : Prop where
  start_lt : r.start < 2 ^ 64
  start_dvd : frameSize ∣ r.start
  end_dvd : frameSize ∣ r.end_

instance (r : MemoryRegion) : Decidable r.PageAligned :=
  decidable_of_iff (r.start < 2 ^ 64 ∧ frameSize ∣ r.start ∧ frameSize ∣ r.end_)
    ⟨fun h => ⟨h.1, h.2.1, h.2.2⟩, fun h => ⟨h.1, h.2, h.3⟩⟩

/-- Two regions share no address. -/
def MemoryRegion.Disjoint (r r' : MemoryRegion) : Prop := r.end_ ≤ r'.start ∨ r'.end_ ≤ r.start

instance : DecidableRel MemoryRegion.Disjoint := fun _ _ => inferInstanceAs (Decidable (_ ∨ _))

/-- The lowest address of the regions, as `new` finds it. -/
def lowest (us : List MemoryRegion) : ℕ := us.foldl (fun b r => min b r.start) (2 ^ 64 - 1)

/-- The number of frames `new` tracks. -/
def tracked (us : List MemoryRegion) : ℕ :=
  let total := (us.foldl (fun e r => max e r.end_) 0 - lowest us) / frameSize
  if maxTrackedFrames < total then maxTrackedFrames else total

/-- The tracked frames that are in a region. -/
def usableFrames (us : List MemoryRegion) : Set ℕ :=
  {x | x < tracked us ∧ ∃ r ∈ us, r.Has (lowest us + x * frameSize) 1}

/-- What `new` builds an allocator over. -/
def layoutOf (us : List MemoryRegion) (offset : ℕ) (h : frameSize ∣ lowest us) : Layout :=
  ⟨tracked us, lowest us, offset, usableFrames us, h⟩

/-- All frames of a range are in the same region. -/
def InRegion (us : List MemoryRegion) (c : ℕ × ℕ) : Prop :=
  ∃ r ∈ us, r.Has (lowest us + c.1 * frameSize) (2 ^ c.2)

instance (us : List MemoryRegion) (c : ℕ × ℕ) : Decidable (InRegion us c) :=
  inferInstanceAs (Decidable (∃ r ∈ us, _))

/-- The ranges that, if they are all usable, are in one region. -/
def oneRegion (us : List MemoryRegion) : Set (ℕ × ℕ) :=
  {c | (∀ x, AlignedRange.Has c x → x ∈ usableFrames us) → InRegion us c}

/-- The minimum is a bound, and one of the starts. -/
theorem lowest_spec (us : List MemoryRegion) : ∀ b, us.foldl (fun b r => min b r.start) b ≤ b ∧
    (∀ r ∈ us, us.foldl (fun b r => min b r.start) b ≤ r.start) ∧
    (us.foldl (fun b r => min b r.start) b = b ∨
      ∃ r ∈ us, us.foldl (fun b r => min b r.start) b = r.start) := by
  induction us with
  | nil => exact fun b => ⟨le_rfl, by simp, .inl rfl⟩
  | cons r us ih =>
    intro b
    obtain ⟨hle, hall, heq⟩ := ih (min b r.start)
    rw [List.foldl_cons]
    refine ⟨hle.trans (min_le_left _ _), List.forall_mem_cons.mpr
      ⟨hle.trans (min_le_right _ _), hall⟩, ?_⟩
    rcases heq with heq | ⟨r', hr', heq⟩
    · rcases min_choice b r.start with hmin | hmin
      · exact .inl (heq.trans hmin)
      · exact .inr ⟨r, List.mem_cons_self, heq.trans hmin⟩
    · exact .inr ⟨r', List.mem_cons_of_mem _ hr', heq⟩

theorem lowest_le (hr : r ∈ us) : lowest us ≤ r.start := (lowest_spec us _).2.1 r hr

/-- The first tracked frame starts at a frame boundary. -/
theorem dvd_lowest (hne : us ≠ []) (hal : ∀ r ∈ us, r.PageAligned) : frameSize ∣ lowest us := by
  obtain ⟨r, hr⟩ := List.exists_mem_of_ne_nil us hne
  rcases (lowest_spec us (2 ^ 64 - 1)).2.2 with heq | ⟨r', hr', heq⟩
  · -- no boundary is that high
    have hle := lowest_le hr
    obtain ⟨hlt, ⟨a, ha⟩, -⟩ := hal r hr
    have hlow : lowest us = 2 ^ 64 - 1 := heq
    simp only [frameSize] at ha
    omega
  · exact (show lowest us = r'.start from heq) ▸ (hal r' hr').start_dvd

/-- Frames of a region, by address and by index. -/
theorem has_iff (hb : frameSize ∣ p) (hr : r.PageAligned) (h1 : p ≤ r.start) (h2 : p ≤ r.end_) :
    r.Has (p + x * frameSize) n ↔
      (r.start - p) / frameSize ≤ x ∧ x + n ≤ (r.end_ - p) / frameSize := by
  obtain ⟨b, rfl⟩ := hb
  obtain ⟨a, ha⟩ := hr.start_dvd
  obtain ⟨e, he⟩ := hr.end_dvd
  simp only [MemoryRegion.Has, ha, he, frameSize] at *
  omega

theorem frameRange_spec (h1 : s.basePhys ≤ r.start) (hg : g → r.start ≤ r.end_) :
    Returns g (s.frameRange r) fun q => s.basePhys ≤ r.end_ ∧
      q = ((r.start - s.basePhys) / frameSize, (r.end_ - s.basePhys) / frameSize) := by
  simp only [frameRange, Word.sub_of_le h1, Option.bind_eq_bind, Option.bind_some]
  by_cases h2 : s.basePhys ≤ r.end_
  · rw [Word.sub_of_le h2, Option.bind_some]
    exact .of_eq rfl ⟨h2, rfl⟩
  · rw [Word.sub, if_neg h2]
    exact ⟨fun q hq => absurd hq (by simp), fun h => absurd (h1.trans (hg h)) h2⟩

/-- **Marking a region** sets the bits of its tracked frames. -/
theorem markRegion_spec (ht : s.totalFrames ≤ maxTrackedFrames) (hb : frameSize ∣ s.basePhys)
    (hr : r.PageAligned) (h1 : s.basePhys ≤ r.start) (hg : g → r.start ≤ r.end_) :
    Returns g (s.markRegion r) fun s' => s' = { s with bitmap := s'.bitmap } ∧
      ∀ x, s'.bit x = true ↔
        s.bit x = true ∨ x < s.totalFrames ∧ r.Has (s.basePhys + x * frameSize) 1 := by
  rw [markRegion, Option.bind_eq_bind]
  refine (frameRange_spec h1 hg).bind ?_
  rintro _ ⟨h2, rfl⟩
  simp only [has_iff hb hr h1 h2]
  generalize (r.start - s.basePhys) / frameSize = a
  generalize (r.end_ - s.basePhys) / frameSize = e
  refine (Returns.foldlM (I := fun pre s' => s' = { s with bitmap := s'.bitmap } ∧
    ∀ x, s'.bit x = true ↔ s.bit x = true ∨ x < s.totalFrames ∧ x ∈ pre) ?_ ?_).mono ?_
  · exact ⟨rfl, by simp⟩
  · rintro pre y post s₁ - ⟨hs₁, hbits⟩
    have htotal : s₁.totalFrames = s.totalFrames := by rw [hs₁]
    split_ifs with hy
    · obtain ⟨s₂, hs₂, hm⟩ := markFree_spec (s := s₁) (x := y) (by omega)
      refine .of_eq hs₂ ⟨by rw [hm.rest, hs₁], fun x => ?_⟩
      rw [hm.bit, List.mem_append, List.mem_singleton]
      split_ifs with hx
      · obtain rfl : x = y := by omega
        exact iff_of_true rfl (.inr ⟨htotal ▸ hy, .inr rfl⟩)
      · rw [hbits, or_iff_left (show x ≠ y by omega)]
    · refine .of_eq rfl ⟨hs₁, fun x => ?_⟩
      rw [hbits, List.mem_append, List.mem_singleton]
      refine or_congr_right (and_congr_right fun hx => ?_)
      rw [or_iff_left (show x ≠ y by omega)]
  · rintro s' ⟨hs', hbits⟩
    refine ⟨hs', fun x => ?_⟩
    rw [hbits, List.mem_range'_1]
    refine or_congr_right (and_congr_right fun _ => ?_)
    omega

/-- **Carving a region** covers its tracked frames, and each aligned range in it by one block. -/
theorem Carving.carveRegion (h : Carving G s L C R) (hr : r.PageAligned) (h1 : G.base ≤ r.start)
    (hg : g → (G.Mapped ∧ 8 ∣ G.base + G.offset) ∧ r.start ≤ r.end_)
    (hU : ∀ x < G.total, r.Has (G.base + x * frameSize) 1 → x ∈ G.usable ∧ x ∉ C) :
    Returns g (s.carveRegion r) fun s' => ∃ L', Carving G s' L'
      (C ∪ {x | x < G.total ∧ r.Has (G.base + x * frameSize) 1})
      (R ∪ {c | r.Has (G.base + c.1 * frameSize) (2 ^ c.2)}) := by
  rw [BuddyAllocator.carveRegion, Option.bind_eq_bind]
  refine (frameRange_spec (h.base_eq ▸ h1) fun h => (hg h).2).bind ?_
  rintro _ ⟨h2, rfl⟩
  rw [h.base_eq] at h2 ⊢
  simp only [has_iff G.base_dvd hr h1 h2] at hU ⊢
  generalize (r.start - G.base) / frameSize = a at *
  generalize (r.end_ - G.base) / frameSize = e at *
  rw [h.total_eq]
  split_ifs with hlt
  · refine .of_eq rfl ⟨L, h.congr (fun x => ?_) ?_⟩
    · rw [Set.mem_union, or_iff_left]
      rintro ⟨hx, h3, -⟩
      omega
    · intro c hfit
      rw [Set.mem_union, or_iff_left]
      rintro ⟨h3, -⟩
      have := hfit.le
      have := Nat.two_pow_pos c.2
      omega
  · have hcarve := h.carve (min_le_right e G.total)
      (fun x (h3 : a ≤ x) h4 => hU x (by omega) ⟨h3, by omega⟩) le_rfl
    refine (hcarve.guard fun h => (hg h).1).mono ?_
    rintro s' ⟨L', h'⟩
    refine ⟨L', h'.congr (fun x => ?_) ?_⟩
    · simp only [Set.mem_union, Set.mem_ofPred_eq]
      refine or_congr_right ?_
      omega
    · intro c hfit
      have := hfit.le
      simp only [Set.mem_union, Set.mem_ofPred_eq, le_min_iff, and_iff_left this]

/-! ## `new` -/

/-- A memory map `new` can build an allocator for. -/
structure Buildable (us : List MemoryRegion) (offset : ℕ) : Prop where
  ne : us ≠ []
  le : ∀ r ∈ us, r.start ≤ r.end_
  mapped : ∀ h, (layoutOf us offset h).Mapped

/-- The allocator before any frame is marked. -/
def unmarked (us : List MemoryRegion) (offset : ℕ) (mem : Mem) : BuddyAllocator :=
  ⟨fun _ => none, fun _ => 0, tracked us, lowest us, offset, 0, mem⟩

theorem tracked_le : tracked us ≤ maxTrackedFrames := by
  rw [tracked]
  split_ifs <;> omega

/-- The regions all marked. -/
theorem markRegions_spec {offset : ℕ} {mem : Mem} (hne : us ≠ []) (hal : ∀ r ∈ us, r.PageAligned) :
    Returns (Buildable us offset ∧ 8 ∣ offset) (us.foldlM markRegion (unmarked us offset mem))
      fun s =>
      s = { unmarked us offset mem with bitmap := s.bitmap } ∧
        ∀ x, s.bit x = true ↔ x ∈ usableFrames us := by
  refine (Returns.foldlM (I := fun pre s => s = { unmarked us offset mem with bitmap := s.bitmap } ∧
    ∀ x, s.bit x = true ↔ x < tracked us ∧ ∃ r ∈ pre, r.Has (lowest us + x * frameSize) 1)
    ?_ ?_).mono fun s h => h
  · refine ⟨rfl, fun x => iff_of_false ?_ (by simp)⟩
    simp [bit, unmarked]
  · rintro pre r post s hus ⟨hs, hbits⟩
    have hr : r ∈ us := hus ▸ List.mem_append_right _ List.mem_cons_self
    have htotal : s.totalFrames = tracked us := by rw [hs]; rfl
    have hbase : s.basePhys = lowest us := by rw [hs]; rfl
    refine (markRegion_spec (htotal ▸ tracked_le) (hbase ▸ dvd_lowest hne hal) (hal r hr)
      (hbase ▸ lowest_le hr) fun h => h.1.le r hr).mono ?_
    rintro s' ⟨hs', hbits'⟩
    refine ⟨by rw [hs', hs], fun x => ?_⟩
    rw [hbits', hbits, htotal, hbase]
    simp only [List.mem_append, List.mem_singleton, or_and_right, exists_or,
      exists_eq_left, and_or_left]

/-- The marked allocator has nothing carved yet. -/
theorem Carving.empty {offset : ℕ} {mem : Mem} (h : frameSize ∣ lowest us)
    (hs : s = { unmarked us offset mem with bitmap := s.bitmap })
    (hbits : ∀ x, s.bit x = true ↔ x ∈ usableFrames us) :
    Carving (layoutOf us offset h) s (fun _ => []) ∅ ∅ := by
  have hblocks : ∀ b, b ∉ blocks fun _ => [] := fun b hb => nomatch hb
  refine ⟨⟨fun k => by rw [hs]; rfl, Table.empty, fun ⟨_, h⟩ => (nomatch h),
    fun ⟨_, h⟩ => (nomatch h), by rw [hs]; exact tracked_le⟩, fun b hb => absurd hb (hblocks b),
    fun b hb => absurd hb (hblocks b), fun x => ?_, fun b hb => absurd hb (hblocks b),
    fun c hc => (nomatch hc), hbits, by rw [hs]; rfl, by rw [hs]; rfl, by rw [hs]; rfl,
    by rw [hs]; rfl, fun _ hx => nomatch hx⟩
  exact iff_of_false id fun ⟨b, hb, _⟩ => hblocks b hb

/-- The regions all carved. -/
theorem Carving.carveRegions {offset : ℕ} {h : frameSize ∣ lowest us}
    (hc : Carving (layoutOf us offset h) s (fun _ => []) ∅ ∅) (hal : ∀ r ∈ us, r.PageAligned)
    (hdis : us.Pairwise MemoryRegion.Disjoint) :
    Returns (Buildable us offset ∧ 8 ∣ offset) (us.foldlM BuddyAllocator.carveRegion s) fun s' =>
      ∃ L, Carving (layoutOf us offset h) s' L (usableFrames us)
        {c | InRegion us c} := by
  refine (Returns.foldlM (I := fun (pre : List MemoryRegion) s => ∃ L,
    Carving (layoutOf us offset h) s L
    {x | x < tracked us ∧ ∃ r ∈ pre, r.Has (lowest us + x * frameSize) 1}
    {c | ∃ r ∈ pre, r.Has (lowest us + c.1 * frameSize) (2 ^ c.2)}) ⟨_, hc.congr ?_ ?_⟩ ?_).mono
    fun s' h' => h'
  · simp
  · simp
  · rintro pre r post s hus ⟨L, hs⟩
    have hr : r ∈ us := hus ▸ List.mem_append_right _ List.mem_cons_self
    have h8 : 8 ∣ offset → 8 ∣ lowest us + offset :=
      (Nat.dvd_add_right ((by decide : 8 ∣ frameSize).trans h)).mpr
    refine (hs.carveRegion (hal r hr) (lowest_le hr)
      (fun h' => ⟨⟨h'.1.mapped h, h8 h'.2⟩, h'.1.le r hr⟩)
      fun x hx hxr => ⟨⟨hx, r, hr, hxr⟩, ?_⟩).mono ?_
    · rintro ⟨-, r', hr', hxr'⟩
      have hoff : r'.Disjoint r :=
        (List.pairwise_append.mp (hus ▸ hdis)).2.2 r' hr' r List.mem_cons_self
      obtain ⟨h1, h2⟩ := hxr
      obtain ⟨h3, h4⟩ := hxr'
      simp only [MemoryRegion.Disjoint, frameSize, layoutOf] at hoff h1 h2 h3 h4
      omega
    · rintro s' ⟨L', h'⟩
      refine ⟨L', h'.congr (fun x => ?_) ?_⟩
      · simp only [List.mem_append, List.mem_singleton, or_and_right, exists_or, exists_eq_left,
          and_or_left, Set.mem_union, Set.mem_ofPred_eq]
        rfl
      · intro c _
        simp only [List.mem_append, List.mem_singleton, or_and_right, exists_or, exists_eq_left,
          Set.mem_union, Set.mem_ofPred_eq]
        rfl

/-- Carved regions are a pool with nothing in use. -/
theorem Carving.holds {offset : ℕ} {h : frameSize ∣ lowest us}
    (hc : Carving (layoutOf us offset h) s L (usableFrames us)
      {c | InRegion us c}) :
    Holds (layoutOf us offset h) (oneRegion us) s L [] where
  lists := hc.lists
  pool :=
    { free_fits := hc.fits
      free_off := hc.off
      used_fits := by simp
      used_off := .nil
      free_used := by simp
      cover := fun x _ => (hc.cover x).trans (by simp)
      maximal := fun c hQ hfit hfree =>
        hc.inside c (hQ fun x hx => (hc.cover x).mpr (hfree x hx)) hfit }
  bits x := (hc.bits x).trans (hc.cover x)
  total_eq := hc.total_eq
  base_eq := hc.base_eq
  offset_eq := hc.offset_eq
  aligned x hx _ := hc.aligned x hx

/-- `new` computes the layout, marks, and carves. -/
theorem new_eq {offset : ℕ} {mem : Mem} (hne : usableRegions regions ≠ []) :
    new regions offset mem =
      (Word.sub ((usableRegions regions).foldl (fun e r => max e r.end_) 0)
        (lowest (usableRegions regions))).bind fun _ =>
      ((usableRegions regions).foldlM markRegion
        (unmarked (usableRegions regions) offset mem)).bind
      ((usableRegions regions).foldlM BuddyAllocator.carveRegion) := by
  rw [new, if_neg hne]
  refine Option.bind_congr fun t ht => ?_
  obtain ⟨rfl, -⟩ := Word.sub_eq_some ht
  rfl

/-- The largest end is at least every end. -/
theorem le_lastEnd (us : List MemoryRegion) : ∀ b, b ≤ us.foldl (fun e r => max e r.end_) b ∧
    ∀ r ∈ us, r.end_ ≤ us.foldl (fun e r => max e r.end_) b := by
  induction us with
  | nil => exact fun b => ⟨le_rfl, by simp⟩
  | cons r us ih =>
    intro b
    obtain ⟨hle, hall⟩ := ih (max b r.end_)
    exact ⟨(le_max_left _ _).trans hle,
      List.forall_mem_cons.mpr ⟨(le_max_right _ _).trans hle, hall⟩⟩

/-- **What `new` leaves behind**: a pool of the usable frames, merged within each region and not
across. -/
theorem new_holds {offset : ℕ} {mem : Mem} (hal : ∀ r ∈ usableRegions regions, r.PageAligned)
    (hdis : (usableRegions regions).Pairwise MemoryRegion.Disjoint) :
    Returns (Buildable (usableRegions regions) offset ∧ 8 ∣ offset) (new regions offset mem)
      fun s => s.allocatedCount = 0 ∧ ∃ h L, Holds (layoutOf (usableRegions regions) offset h)
        (oneRegion (usableRegions regions)) s L [] ∧
        ∀ b ∈ blocks L, InRegion (usableRegions regions) b := by
  by_cases hne : usableRegions regions = []
  · refine ⟨fun s hs => ?_, fun h => absurd hne h.1.ne⟩
    rw [new, if_pos hne] at hs
    exact nomatch hs
  rw [new_eq hne]
  generalize usableRegions regions = us at *
  refine Returns.bind (P := fun _ => True) ⟨fun _ _ => trivial, fun h => ?_⟩ fun _ _ => ?_
  · obtain ⟨r, hr⟩ := List.exists_mem_of_ne_nil us hne
    exact ⟨_, Word.sub_of_le
      ((lowest_le hr).trans ((h.1.le r hr).trans ((le_lastEnd us 0).2 r hr)))⟩
  refine (markRegions_spec hne hal).bind ?_
  rintro s ⟨hs, hbits⟩
  refine ((Carving.empty (dvd_lowest hne hal) hs hbits).carveRegions hal hdis).mono ?_
  rintro s' ⟨L, hc⟩
  exact ⟨hc.count_eq, _, L, hc.holds, hc.within⟩

end YontiOs.Buddy
