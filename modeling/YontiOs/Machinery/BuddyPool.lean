import YontiOs.Machinery.AlignedRange

/-!
# Machinery/BuddyPool — the buddy system, on ranges alone

A pool of `n` units hands out aligned ranges of up to `2 ^ M` of them.  `F` is the set of free
ranges it keeps, `B` the ranges in use, `U` the units it manages.  The point of the invariant is
`maximal`: a range that is free all over is inside one range of `F`, for the ranges of `Q`.  It is
what allows a buddy to be taken out as one range when all its units are seen to be free
(`Pool.buddy_mem`).

Each operation of an allocator is one edit: `Pool.pop`, `Pool.split`, `Pool.merge`, `Pool.push`.
The range an operation has in hand counts as in use.
-/

namespace YontiOs

open AlignedRange

/-- An aligned range inside the pool. -/
structure Fits (M n : ℕ) (b : ℕ × ℕ) : Prop where
  dvd : 2 ^ b.2 ∣ b.1
  order_le : b.2 ≤ M
  le : b.1 + 2 ^ b.2 ≤ n

/-- How many units the ranges have together. -/
def units (B : List (ℕ × ℕ)) : ℕ := (B.map fun b => 2 ^ b.2).sum

theorem units_cons (i k : ℕ) (B : List (ℕ × ℕ)) : units ((i, k) :: B) = 2 ^ k + units B := rfl

theorem units_perm {B B' : List (ℕ × ℕ)} (h : B.Perm B') : units B = units B' := (h.map _).sum_eq

/-- The unit `x` is in one of the free ranges. -/
def Free (F : Set (ℕ × ℕ)) (x : ℕ) : Prop := ∃ b ∈ F, Has b x

/-- The range `b` is inside the range `c`. -/
def Inside (b c : ℕ × ℕ) : Prop := c.1 ≤ b.1 ∧ b.1 + 2 ^ b.2 ≤ c.1 + 2 ^ c.2

/-- **The state of a buddy system**: free ranges and ranges in use, together the managed units,
the free ones merged as far as `Q` asks. -/
structure Pool (M n : ℕ) (U : Set ℕ) (Q F : Set (ℕ × ℕ)) (B : List (ℕ × ℕ)) : Prop where
  free_fits : ∀ b ∈ F, Fits M n b
  free_off : ∀ b ∈ F, ∀ c ∈ F, b ≠ c → Off b c
  used_fits : ∀ b ∈ B, Fits M n b
  used_off : B.Pairwise Off
  free_used : ∀ b ∈ F, ∀ c ∈ B, Off b c
  cover : ∀ x < n, x ∈ U ↔ Free F x ∨ ∃ c ∈ B, Has c x
  maximal : ∀ b ∈ Q, Fits M n b → (∀ x, Has b x → Free F x) → ∃ c ∈ F, Inside b c

namespace Pool

variable {M n i k x : ℕ} {U : Set ℕ} {Q F : Set (ℕ × ℕ)} {B B' : List (ℕ × ℕ)} {b c : ℕ × ℕ}

/-- The order of the ranges in use does not matter. -/
theorem perm (h : Pool M n U Q F B) (hB : B.Perm B') : Pool M n U Q F B' where
  free_fits := h.free_fits
  free_off := h.free_off
  used_fits b hb := h.used_fits b (hB.mem_iff.mpr hb)
  used_off := (hB.pairwise_iff fun h => Off.symm h).mp h.used_off
  free_used b hb c hc := h.free_used b hb c (hB.mem_iff.mpr hc)
  cover x hx := by
    rw [h.cover x hx]
    simp only [hB.mem_iff]
  maximal := h.maximal

/-- A unit in use is not free. -/
theorem not_free (h : Pool M n U Q F B) (hc : c ∈ B) (hx : Has c x) : ¬ Free F x := by
  rintro ⟨b, hb, hbx⟩
  exact (h.free_used b hb c hc).not_has hbx hx

/-- A unit is in one free range only. -/
theorem eq_of_has (h : Pool M n U Q F B) (hb : b ∈ F) (hc : c ∈ F) (hbx : Has b x) (hcx : Has c x) :
    b = c := by
  by_contra hne
  exact (h.free_off b hb c hc hne).not_has hbx hcx

/-- Taking one range out takes its units out. -/
theorem free_diff (h : Pool M n U Q F B) (hb : b ∈ F) :
    Free (F \ {b}) x ↔ Free F x ∧ ¬ Has b x := by
  constructor
  · rintro ⟨c, ⟨hc, hcb⟩, hx⟩
    exact ⟨⟨c, hc, hx⟩, fun hbx => hcb (h.eq_of_has hc hb hx hbx)⟩
  · rintro ⟨⟨c, hc, hx⟩, hbx⟩
    exact ⟨c, ⟨hc, fun hcb => hbx (hcb ▸ hx)⟩, hx⟩

theorem free_insert : Free (insert b F) x ↔ Has b x ∨ Free F x := by
  simp [Free]

/-- **A free range goes into use.** -/
theorem pop (h : Pool M n U Q F B) (hb : b ∈ F) : Pool M n U Q (F \ {b}) (b :: B) where
  free_fits c hc := h.free_fits c hc.1
  free_off c hc d hd := h.free_off c hc.1 d hd.1
  used_fits := List.forall_mem_cons.mpr ⟨h.free_fits b hb, h.used_fits⟩
  used_off := List.pairwise_cons.mpr ⟨fun c hc => h.free_used b hb c hc, h.used_off⟩
  free_used c hc := List.forall_mem_cons.mpr
    ⟨h.free_off c hc.1 b hb hc.2, fun d hd => h.free_used c hc.1 d hd⟩
  cover x hx := by
    rw [h.cover x hx, h.free_diff hb, List.exists_mem_cons_iff]
    by_cases hbx : Has b x
    · exact iff_of_true (.inl ⟨b, hb, hbx⟩) (.inr (.inl hbx))
    · simp [hbx]
  maximal c hQ hc hfree := by
    obtain ⟨d, hd, hin⟩ := h.maximal c hQ hc fun x hx => ((h.free_diff hb).mp (hfree x hx)).1
    refine ⟨d, ⟨hd, ?_⟩, hin⟩
    -- the range itself is free no more, so it is not the one around `c`
    rintro rfl
    have := ((h.free_diff hb).mp (hfree c.1 (has_self c))).2
    have hpos := Nat.two_pow_pos c.2
    exact this ⟨hin.1, by have := hin.2; omega⟩

/-- Maximality when a range is added: only a range around the new one could lose it. -/
theorem maximal_insert (h : Pool M n U Q F B) (hb : Fits M n b)
    (hno : ∀ c, Inside b c → b.2 < c.2 → Fits M n c → ¬ ∀ x, Has c x → Free (insert b F) x) :
    ∀ c ∈ Q, Fits M n c → (∀ x, Has c x → Free (insert b F) x) → ∃ d ∈ insert b F, Inside c d := by
  intro c hQ hc hfree
  -- a range that keeps clear of the new one was free before
  have hold : Off c b → ∃ d ∈ insert b F, Inside c d := fun hoff => by
    obtain ⟨d, hd, hin⟩ := h.maximal c hQ hc fun x hx =>
      (free_insert.mp (hfree x hx)).resolve_left (hoff.not_has hx)
    exact ⟨d, .inr hd, hin⟩
  rcases Nat.lt_or_ge b.2 c.2 with hlt | hge
  · rcases nested_or_disjoint hb.dvd hc.dvd hlt.le with hin | hoff
    · exact absurd hfree (hno c hin hlt hc)
    · exact hold (Off.symm hoff)
  · rcases nested_or_disjoint hc.dvd hb.dvd hge with hin | hoff
    · exact ⟨b, .inl rfl, hin⟩
    · exact hold hoff

/-- **The upper half of a range in use becomes free.** -/
theorem split (h : Pool M n U Q F ((i, k + 1) :: B)) :
    Pool M n U Q (insert (i + 2 ^ k, k) F) ((i, k) :: B) := by
  have hfit := h.used_fits _ List.mem_cons_self
  have hsucc : 2 ^ (k + 1) = 2 ^ k + 2 ^ k := by rw [pow_succ]; omega
  have hdvd : 2 ^ k ∣ i := (Nat.pow_dvd_pow 2 (Nat.le_succ k)).trans hfit.dvd
  have hle := hfit.le
  have hord := hfit.order_le
  dsimp only at hle hord
  have hup : Fits M n (i + 2 ^ k, k) :=
    ⟨(Nat.dvd_add_right hdvd).mpr dvd_rfl, by dsimp only; omega, by dsimp only; omega⟩
  -- what keeps clear of the whole keeps clear of its halves
  have hhalf : ∀ c, Off c (i, k + 1) → Off c (i + 2 ^ k, k) ∧ Off c (i, k) := by
    intro c hc
    simp only [Off] at hc ⊢
    omega
  obtain ⟨hoff, hB⟩ := List.pairwise_cons.mp h.used_off
  have hused : ∀ c ∈ B, Off c (i, k + 1) := fun c hc => (hoff c hc).symm
  refine ⟨?_, ?_, ?_, ?_, ?_, fun x hx => ?_, fun c hQ hc hfree => ?_⟩
  · rintro c (rfl | hc)
    · exact hup
    · exact h.free_fits c hc
  · rintro c (rfl | hc) d (rfl | hd) hne
    · exact absurd rfl hne
    · exact (hhalf d (h.free_used d hd _ List.mem_cons_self)).1.symm
    · exact (hhalf c (h.free_used c hc _ List.mem_cons_self)).1
    · exact h.free_off c hc d hd hne
  · exact List.forall_mem_cons.mpr ⟨⟨hdvd, by dsimp only; omega, by dsimp only; omega⟩,
      fun c hc => h.used_fits c (List.mem_cons_of_mem _ hc)⟩
  · exact List.pairwise_cons.mpr ⟨fun c hc => (hhalf c (hused c hc)).2.symm, hB⟩
  · rintro c (rfl | hc)
    · refine List.forall_mem_cons.mpr ⟨.inr le_rfl, fun d hd => (hhalf d (hused d hd)).1.symm⟩
    · exact List.forall_mem_cons.mpr ⟨(hhalf c (h.free_used c hc _ List.mem_cons_self)).2,
        fun d hd => h.free_used c hc d (List.mem_cons_of_mem _ hd)⟩
  · have hsplit : Has (i, k + 1) x ↔ Has (i + 2 ^ k, k) x ∨ Has (i, k) x := by
      simp only [Has]
      omega
    rw [h.cover x hx, free_insert, List.exists_mem_cons_iff, List.exists_mem_cons_iff, hsplit,
      or_assoc, or_assoc, or_left_comm]
  · refine h.maximal_insert hup (fun c hin hlt hfits hfree => ?_) c hQ hc hfree
    -- a range around the new half has the lower half too, and that is in use
    obtain hnest | hdis := nested_or_disjoint hfit.dvd hfits.dvd (show k + 1 ≤ c.2 from hlt)
    · have hpos := Nat.two_pow_pos (k + 1)
      refine h.not_free List.mem_cons_self (x := i) ⟨le_rfl, by dsimp only; omega⟩ ?_
      refine (free_insert.mp (hfree i
        ⟨hnest.1, by have := hnest.2; dsimp only at this; omega⟩)).resolve_left ?_
      simp only [Has]
      omega
    · have := hin.1
      have := hin.2
      have hpos := Nat.two_pow_pos k
      dsimp only at *
      omega

/-- **All free, hence one range**: the buddy of a range in hand, once its units are all free. -/
theorem buddy_mem (h : Pool M n U Q F ((i, k) :: B)) (hQ : (buddy i k, k) ∈ Q) (hk : k < M)
    (hle : buddy i k + 2 ^ k ≤ n) (hfree : ∀ x, Has (buddy i k, k) x → Free F x) :
    (buddy i k, k) ∈ F := by
  have hfit := h.used_fits _ List.mem_cons_self
  obtain ⟨hpar, hbd, hcase⟩ := parent_cases hfit.dvd
  obtain ⟨c, hc, hin⟩ := h.maximal _ hQ ⟨hbd, hk.le, hle⟩ hfree
  have hcfit := h.free_fits c hc
  have hpos := Nat.two_pow_pos k
  have hsucc : 2 ^ (k + 1) = 2 ^ k + 2 ^ k := by rw [pow_succ]; omega
  have hin1 := hin.1
  have hin2 := hin.2
  dsimp only at hin1 hin2 hcase hbd hpar
  rcases Nat.lt_trichotomy c.2 k with hlt | heq | hgt
  · -- too small to hold the buddy
    have := Nat.pow_lt_pow_right (show 1 < 2 by decide) hlt
    omega
  · obtain ⟨j, l⟩ := c
    obtain rfl : l = k := heq
    obtain rfl : j = buddy i l := by
      dsimp only at hin1 hin2
      omega
    exact hc
  · -- large enough to hold the parent, and with it the range in hand
    exfalso
    have hnest := parent_nested hbd hcfit.dvd hgt hin1 hin2
    rw [parent_buddy] at hnest
    refine h.not_free List.mem_cons_self (x := i) ⟨le_rfl, by dsimp only; omega⟩ ⟨c, hc, ?_⟩
    constructor <;> omega

/-- **Two buddies in hand become their parent.** -/
theorem merge (h : Pool M n U Q F ((i, k) :: B)) (hk : k < M) (hb : (buddy i k, k) ∈ F) :
    Pool M n U Q (F \ {(buddy i k, k)}) ((parent i k, k + 1) :: B) := by
  have h' := h.pop hb
  have hfit := h.used_fits _ List.mem_cons_self
  have hbfit := h.free_fits _ hb
  obtain ⟨hpar, -, hcase⟩ := parent_cases hfit.dvd
  have hsucc : 2 ^ (k + 1) = 2 ^ k + 2 ^ k := by rw [pow_succ]; omega
  have h1 := hfit.le
  have h2 := hbfit.le
  dsimp only at h1 h2 hcase hpar
  -- what keeps clear of both halves keeps clear of the parent
  have hboth : ∀ c, Off c (buddy i k, k) → Off c (i, k) → Off c (parent i k, k + 1) := by
    intro c hc1 hc2
    have hpos := Nat.two_pow_pos c.2
    simp only [Off] at hc1 hc2 ⊢
    rcases hcase with ⟨hi, hbi⟩ | ⟨hi, hbi⟩ <;> rw [hbi] at hc1 <;> omega
  obtain ⟨hoffb, hrest⟩ := List.pairwise_cons.mp h'.used_off
  obtain ⟨hoffi, hB⟩ := List.pairwise_cons.mp hrest
  refine ⟨h'.free_fits, h'.free_off, ?_, ?_, ?_, fun x hx => ?_, h'.maximal⟩
  · refine List.forall_mem_cons.mpr ⟨⟨hpar, by dsimp only; omega, by dsimp only; omega⟩,
      fun c hc => h.used_fits c (List.mem_cons_of_mem _ hc)⟩
  · refine List.pairwise_cons.mpr ⟨fun c hc => (hboth c ?_ (hoffi c hc).symm).symm, hB⟩
    exact (hoffb c (List.mem_cons_of_mem _ hc)).symm
  · intro c hc
    refine List.forall_mem_cons.mpr ⟨hboth c (h'.free_used c hc _ List.mem_cons_self)
      (h'.free_used c hc _ (List.mem_cons_of_mem _ List.mem_cons_self)), fun d hd =>
      h'.free_used c hc d (List.mem_cons_of_mem _ (List.mem_cons_of_mem _ hd))⟩
  · have hsplit : Has (parent i k, k + 1) x ↔ Has (buddy i k, k) x ∨ Has (i, k) x := by
      simp only [Has]
      rcases hcase with ⟨hi, hbi⟩ | ⟨hi, hbi⟩ <;> rw [hbi] <;> omega
    rw [h'.cover x hx]
    simp only [List.exists_mem_cons_iff, hsplit, or_assoc]

/-- **A range in hand becomes free**, when its buddy cannot be merged with it. -/
theorem push (h : Pool M n U Q F ((i, k) :: B))
    (hstop : k < M → buddy i k + 2 ^ k ≤ n → ∃ x, Has (buddy i k, k) x ∧ ¬ Free F x) :
    Pool M n U Q (insert (i, k) F) B := by
  have hfit := h.used_fits _ List.mem_cons_self
  obtain ⟨-, hbd, hcase⟩ := parent_cases hfit.dvd
  have hsucc : 2 ^ (k + 1) = 2 ^ k + 2 ^ k := by rw [pow_succ]; omega
  dsimp only at hcase hbd
  obtain ⟨hoff, hB⟩ := List.pairwise_cons.mp h.used_off
  refine ⟨?_, ?_, fun c hc => h.used_fits c (List.mem_cons_of_mem _ hc), hB, ?_, fun x hx => ?_,
    h.maximal_insert hfit fun c hin hlt hfits hfree => ?_⟩
  · rintro c (rfl | hc)
    · exact hfit
    · exact h.free_fits c hc
  · rintro c (rfl | hc) d (rfl | hd) hne
    · exact absurd rfl hne
    · exact (h.free_used d hd _ List.mem_cons_self).symm
    · exact h.free_used c hc _ List.mem_cons_self
    · exact h.free_off c hc d hd hne
  · rintro c (rfl | hc) d hd
    · exact hoff d hd
    · exact h.free_used c hc d (List.mem_cons_of_mem _ hd)
  · rw [h.cover x hx, free_insert, List.exists_mem_cons_iff, or_assoc, or_left_comm]
  · -- a range around it would have the buddy, free all over
    have hnest := parent_nested hfit.dvd hfits.dvd hlt hin.1 hin.2
    have hcle := hfits.le
    have hcord := hfits.order_le
    dsimp only at hlt hnest
    obtain ⟨x, hx, hnf⟩ := hstop (by omega) (by omega)
    have hxc : Has c x := by
      simp only [Has] at hx ⊢
      omega
    refine hnf ((free_insert.mp (hfree x hxc)).resolve_left fun hix => ?_)
    simp only [Has] at hx hix
    omega

/-- **Free buddies are merged**, where `Q` asks for their parent. -/
theorem buddy_notMem (h : Pool M n U Q F B) (hk : k < M) (hQ : (parent i k, k + 1) ∈ Q)
    (hi : (i, k) ∈ F) : (buddy i k, k) ∉ F := by
  intro hb
  have hfit := h.free_fits _ hi
  have hle := hfit.le
  have hble := (h.free_fits _ hb).le
  obtain ⟨hpar, -, hcase⟩ := parent_cases hfit.dvd
  have hpos := Nat.two_pow_pos k
  have hsucc : 2 ^ (k + 1) = 2 ^ k + 2 ^ k := by rw [pow_succ]; omega
  dsimp only at hle hble hpar hcase
  have hfree : ∀ x, Has (parent i k, k + 1) x → Free F x := fun x hx => by
    by_cases hix : Has (i, k) x
    · exact ⟨_, hi, hix⟩
    · refine ⟨_, hb, ?_⟩
      simp only [Has] at hx hix ⊢
      omega
  obtain ⟨c, hc, hin⟩ := h.maximal _ hQ ⟨hpar, hk, by dsimp only; omega⟩ hfree
  have h1 := hin.1
  have h2 := hin.2
  dsimp only at h1 h2
  -- the range around both has `i` in it, and so is `(i, k)`, which is too small
  obtain rfl := h.eq_of_has hc hi (x := i) ⟨by omega, by omega⟩ (has_self (i, k))
  dsimp only at h1 h2
  omega

/-- **A range that is merged as far as possible is a range of every such pool** with the same free
units: the range around it there is inside a range here. -/
theorem subset_of_free_iff {U' : Set ℕ} {F' : Set (ℕ × ℕ)} (h : Pool M n U Set.univ F B)
    (h' : Pool M n U' Set.univ F' B') (hfree : ∀ x, Free F x ↔ Free F' x) : F ⊆ F' := by
  intro b hb
  obtain ⟨c, hc, hbc⟩ := h'.maximal b trivial (h.free_fits b hb) fun x hx =>
    (hfree x).mp ⟨b, hb, hx⟩
  obtain ⟨d, hd, hcd⟩ := h.maximal c trivial (h'.free_fits c hc) fun x hx =>
    (hfree x).mpr ⟨c, hc, hx⟩
  have hpos := Nat.two_pow_pos b.2
  have hbd : Has d b.1 := ⟨hcd.1.trans hbc.1, by have := hbc.2; have := hcd.2; omega⟩
  obtain rfl := h.eq_of_has hb hd (has_self b) hbd
  -- each of the two is inside the other
  have hstart : c.1 = b.1 := le_antisymm hbc.1 hcd.1
  have hsize : 2 ^ c.2 = 2 ^ b.2 := by
    have := hbc.2
    have := hcd.2
    omega
  obtain rfl : c = b := Prod.ext hstart (Nat.pow_right_injective le_rfl hsize)
  exact hc

/-- **The free ranges are determined by the free units**, when all that can be merged is merged. -/
theorem eq_of_free_iff {U' : Set ℕ} {F' : Set (ℕ × ℕ)} (h : Pool M n U Set.univ F B)
    (h' : Pool M n U' Set.univ F' B') (hfree : ∀ x, Free F x ↔ Free F' x) : F = F' :=
  (h.subset_of_free_iff h' hfree).antisymm (h'.subset_of_free_iff h fun x => (hfree x).symm)

/-- With nothing in use the free units are the managed ones. -/
theorem free_iff_of_nil (h : Pool M n U Q F []) : Free F x ↔ x ∈ U ∧ x < n := by
  constructor
  · rintro ⟨b, hb, hx⟩
    have hlt : x < n := hx.2.trans_le (h.free_fits b hb).le
    exact ⟨(h.cover x hlt).mpr (.inl ⟨b, hb, hx⟩), hlt⟩
  · rintro ⟨hU, hlt⟩
    simpa using (h.cover x hlt).mp hU

/-- The units in use, counted range by range. -/
theorem ncard_used (h : Pool M n U Q F B) : {x | ∃ c ∈ B, Has c x}.ncard = units B := by
  have hnd : (B.flatMap fun c => List.range' c.1 (2 ^ c.2)).Nodup := by
    refine List.nodup_flatMap.mpr ⟨fun c _ => List.nodup_range', h.used_off.imp fun hoff => ?_⟩
    refine fun x hb hc => hoff.not_has (x := x) ?_ ?_
    · exact List.mem_range'_1.mp hb
    · exact List.mem_range'_1.mp hc
  have hset : {x | ∃ c ∈ B, Has c x} = (B.flatMap fun c => List.range' c.1 (2 ^ c.2)).toFinset := by
    ext x
    simp only [Set.mem_ofPred_eq, List.coe_toFinset, List.mem_flatMap, List.mem_range'_1, Has]
  rw [hset, Set.ncard_coe_finset, List.toFinset_card_of_nodup hnd, List.length_flatMap,
    List.map_congr_left fun c _ => List.length_range']
  rfl

theorem finite_units (n : ℕ) (p : ℕ → Prop) : {x | x < n ∧ p x}.Finite :=
  (Set.finite_lt_nat n).subset fun _ hx => hx.1

/-- **Free units and units in use make up the managed ones.** -/
theorem ncard_free_add_units (h : Pool M n U Q F B) :
    {x | Free F x}.ncard + units B = {x | x < n ∧ x ∈ U}.ncard := by
  have hset : {x | x < n ∧ x ∈ U} = {x | Free F x} ∪ {x | ∃ c ∈ B, Has c x} := by
    ext x
    constructor
    · exact fun hx => (h.cover x hx.1).mp hx.2
    · intro hx
      have hlt : x < n := by
        rcases hx with ⟨b, hb, hbx⟩ | ⟨b, hb, hbx⟩
        · exact hbx.2.trans_le (h.free_fits b hb).le
        · exact hbx.2.trans_le (h.used_fits b hb).le
      exact ⟨hlt, (h.cover x hlt).mpr hx⟩
  have hdis : Disjoint {x | Free F x} {x | ∃ c ∈ B, Has c x} := by
    refine Set.disjoint_left.mpr ?_
    rintro x hx ⟨c, hc, hcx⟩
    exact h.not_free hc hcx hx
  have hfin := finite_units n (· ∈ U)
  rw [hset] at hfin ⊢
  rw [Set.ncard_union_eq hdis (hfin.subset Set.subset_union_left)
    (hfin.subset Set.subset_union_right), h.ncard_used]

/-- The ranges in use take up no more than the pool. -/
theorem units_le (h : Pool M n U Q F B) : units B ≤ n := by
  have hsub : {x | x < n ∧ x ∈ U} ⊆ Set.Iio n := fun x hx => hx.1
  have hle := Set.ncard_le_ncard hsub (Set.finite_Iio n)
  rw [← h.ncard_free_add_units, Set.ncard_Iio_nat] at hle
  omega

end Pool

end YontiOs
