import YontiOs.Memory.FrameClient

/-!
# Memory/Borders — touching regions: when the merge loop unlinks what no list has

`new` carves each region by itself, so a range across the border of two touching regions is free but
is not one block.  The merge loop reads the bitmap only, and takes such a range for one block as
soon as its buddy is given back (`remove_free_misses_list`).

`HalvesInRegions` is exactly what prevents it: of every usable range the loop could put together,
each half is in one region.  Given that, `new` has merged all that the loop ever asks for.  Without
it some run goes wrong: allocate blocks of one order until the first one beside an unmerged range
comes out, and give it back (`misses_of_half`, `misses_of_quarters`).
-/

namespace YontiOs.Buddy

open AlignedRange BuddyAllocator

variable {G : Layout} {Q : Set (ℕ × ℕ)} {L : ℕ → List ℕ} {B : List (ℕ × ℕ)}
  {b c : ℕ × ℕ} {s s' : Sys}
  {a₀ : BuddyAllocator} {i j k x offset : ℕ} {l₁ l₂ : List ℕ} {us regions : List MemoryRegion}
  {mem : Mem}

/-- Each half of every usable range that deallocation could merge is in one region. -/
def HalvesInRegions (us : List MemoryRegion) : Prop :=
  ∀ i k, k < maxOrder → 2 ^ (k + 1) ∣ i → (∀ x, Has (i, k + 1) x → x ∈ usableFrames us) →
    InRegion us (i, k) ∧ InRegion us (i + 2 ^ k, k)

/-- In every run from here, deallocating a live block unlinks members of the lists only. -/
def UnlinksMembers (s : Sys) : Prop :=
  ∀ ops s' f k, Run Sys.exec Sys.Allowed s ops s' → (f, k) ∈ s'.live →
    ∀ c ∈ s'.alloc.removeCalls f k, c.Member

/-! ## Sufficiency -/

/-- The ranges `new` has merged are then those the merge loop asks for. -/
theorem HalvesInRegions.asks (hhalf : HalvesInRegions us) {h : frameSize ∣ lowest us} :
    (layoutOf us offset h).Asks (oneRegion us) := by
  intro i k hk hd hfit husable _
  obtain ⟨h1, h2⟩ := hhalf (parent i k) k hk hfit.dvd husable
  obtain ⟨-, -, ⟨hi, -⟩ | ⟨hi, -⟩⟩ := parent_cases hd
  · rw [← hi] at h1
    exact h1
  · rw [← hi] at h2
    exact h2

theorem Sys.Inv.unlinksMembers (h : s.Inv G Q L B) (hQ : G.Asks Q) : UnlinksMembers s := by
  intro ops s' f k hrun hlive
  obtain ⟨L', B', h'⟩ := h.run hQ hrun
  exact (h'.deallocate (.inl hQ) hlive).1

/-! ## Necessity -/

theorem InRegion.mono (h : InRegion us c) (hin : Inside b c) : InRegion us b := by
  obtain ⟨r, hr, h1, h2⟩ := h
  obtain ⟨h3, h4⟩ := hin
  refine ⟨r, hr, ?_⟩
  simp only [MemoryRegion.Has, frameSize] at h1 h2 ⊢
  omega

/-- Allocations of one order take the first blocks of its list. -/
theorem Sys.Inv.pops (h : s.Inv G Q L B) (hmap : G.Mapped) (hk : k ≤ maxOrder)
    (hL : L k = l₁ ++ l₂) :
    ∃ ops s', Run Sys.exec (fun s op => s.Allowed op ∧ s.UnlinksListed op) s ops s' ∧
      s'.Inv G Q (Function.update L k l₂) ((l₁.reverse.map fun i => (i, k)) ++ B) := by
  induction l₁ generalizing s L B with
  | nil =>
    obtain rfl : L k = l₂ := hL
    exact ⟨[], s, .nil s, by rwa [Function.update_eq_self]⟩
  | cons i l₁ ih =>
    obtain ⟨r, hr⟩ := (h.holds.allocateFrameOrder_head h.count hk hL).returns hmap
    obtain ⟨hframe, h₁, hc⟩ := (h.holds.allocateFrameOrder_head h.count hk hL).post r hr
    set s₁ : Sys := ⟨r.2, (r.1.map fun f => (f, k)).toList ++ s.live⟩ with hs₁
    have hstep : s.exec (.allocate k) = some s₁ := by
      rw [Sys.exec, hr]
      rfl
    have hinv : s₁.Inv G Q (Function.update L k (l₁ ++ l₂)) ((i, k) :: B) := by
      refine ⟨h₁, ?_, hc⟩
      simp [hs₁, hframe, h.live, Layout.place]
    obtain ⟨ops, s', hrun, h'⟩ := ih hinv (Function.update_self ..)
    refine ⟨.allocate k :: ops, s', .cons ⟨trivial, trivial⟩ hstep hrun, ?_⟩
    rw [Function.update_idem] at h'
    simpa using h'

/-- Any block of a list is handed out in the end, by allocations of its order. -/
theorem Sys.Inv.pops_through (h : s.Inv G Q L B) (hmap : G.Mapped) (hk : k ≤ maxOrder)
    (hL : L k = l₁ ++ i :: l₂) :
    ∃ ops s' B', Run Sys.exec (fun s op => s.Allowed op ∧ s.UnlinksListed op) s ops s' ∧
      s'.Inv G Q (Function.update L k l₂) ((i, k) :: B') := by
  obtain ⟨ops, s', hrun, h'⟩ := h.pops hmap hk (show L k = (l₁ ++ [i]) ++ l₂ by simp [hL])
  rw [List.reverse_append, List.reverse_singleton, List.singleton_append, List.map_cons,
    List.cons_append] at h'
  exact ⟨ops, s', _, hrun, h'⟩

/-- The state `new` leaves behind. -/
structure AtStart (us : List MemoryRegion) (G : Layout) (s : Sys) (L : ℕ → List ℕ) : Prop where
  inv : s.Inv G (oneRegion us) L []
  within : ∀ b ∈ blocks L, InRegion us b
  total_eq : G.total = tracked us
  usable_eq : G.usable = usableFrames us

namespace AtStart

theorem free (h : AtStart us G s L) (hx : x ∈ usableFrames us) : Free (blocks L) x := by
  have hcover := (h.inv.holds.pool.cover x (h.total_eq ▸ hx.1)).mp (h.usable_eq ▸ hx)
  simpa using hcover

/-- A usable range is tracked. -/
theorem le_total (h : AtStart us G s L) (hc : ∀ x, Has c x → x ∈ usableFrames us) :
    c.1 + 2 ^ c.2 ≤ G.total := by
  have hpos := Nat.two_pow_pos c.2
  have hlast := (hc (c.1 + 2 ^ c.2 - 1) ⟨by omega, by omega⟩).1
  rw [h.total_eq]
  omega

/-- A block that meets a range across a border is smaller. -/
theorem order_lt (h : AtStart us G s L) (hb : b ∈ blocks L) (hbx : Has b x) (hc : 2 ^ c.2 ∣ c.1)
    (hcx : Has c x) (hbad : ¬ InRegion us c) : b.2 < c.2 := by
  by_contra hle
  rcases nested_or_disjoint hc (h.inv.holds.pool.free_fits b hb).dvd (not_lt.mp hle) with hin | hoff
  · exact hbad ((h.within b hb).mono hin)
  · exact Off.not_has hoff hcx hbx

/-- A range in one region is a block, if its parent is across a border. -/
theorem mem_list (h : AtStart us G s L) (hk : k ≤ maxOrder) (hd : 2 ^ k ∣ j)
    (husable : ∀ x, Has (j, k) x → x ∈ usableFrames us) (hgood : InRegion us (j, k))
    (hbad : ¬ InRegion us (parent j k, k + 1)) : j ∈ L k := by
  obtain ⟨b, hb, hin⟩ := h.inv.holds.pool.maximal (j, k) (fun _ => hgood)
    ⟨hd, hk, h.le_total husable⟩ fun x hx => h.free (husable x hx)
  have h1 := hin.1
  have h2 := hin.2
  dsimp only at h1 h2
  rcases Nat.lt_trichotomy b.2 k with hlt | heq | hgt
  · have := Nat.pow_lt_pow_right (show 1 < 2 by decide) hlt
    omega
  · obtain ⟨j', l⟩ := b
    obtain rfl : l = k := heq
    obtain rfl : j' = j := by
      dsimp only at h1 h2
      omega
    exact hb
  · have hnest : Inside (parent j k, k + 1) b :=
      parent_nested hd (h.inv.holds.pool.free_fits b hb).dvd hgt h1 h2
    exact absurd ((h.within b hb).mono hnest) hbad

end AtStart

/-- One call on a block that is not on its list. -/
theorem Sys.Inv.not_unlinksMembers {ops : List Op} {c : RemoveCall} (h : s'.Inv G Q L ((i, k) :: B))
    (hrun : Run Sys.exec Sys.Allowed s ops s')
    (hc : c ∈ (BuddyAllocator.coalesce { s'.alloc with allocatedCount := units B } i k
      (maxOrder - k)).1) (hno : ¬ c.Member) : ¬ UnlinksMembers s := by
  intro hun
  refine hno (hun ops s' (G.base + i * frameSize) k hrun ?_ c ?_)
  · rw [h.live]
    exact List.mem_cons_self
  · rwa [h.holds.removeCalls_eq h.count]

/-- **A block beside a range across a border**: the first half of a usable range is in one region,
its buddy is not.  Once the half is handed out, giving it back goes wrong. -/
theorem misses_of_half (h : AtStart us G s L) (hmap : G.Mapped) (hk : k < maxOrder) (hd : 2 ^ k ∣ j)
    (husable : ∀ x, Has (parent j k, k + 1) x → x ∈ usableFrames us) (hgood : InRegion us (j, k))
    (hbad : ¬ InRegion us (buddy j k, k)) : ¬ UnlinksMembers s := by
  obtain ⟨hpar, hbd, hcase⟩ := parent_cases hd
  have hsucc : 2 ^ (k + 1) = 2 ^ k + 2 ^ k := by rw [pow_succ]; omega
  have hj : Inside (j, k) (parent j k, k + 1) := by
    simp only [Inside]
    omega
  have hb : Inside (buddy j k, k) (parent j k, k + 1) := by
    simp only [Inside]
    omega
  have hsub : ∀ c, Inside c (parent j k, k + 1) → ∀ x, Has c x → x ∈ usableFrames us :=
    fun c hc x hx => husable x ⟨hc.1.trans hx.1, hx.2.trans_le hc.2⟩
  have hmem : j ∈ L k := h.mem_list hk.le hd (hsub _ hj) hgood fun hp => hbad (hp.mono hb)
  obtain ⟨l₁, l₂, hL⟩ := List.append_of_mem hmem
  obtain ⟨ops, s', B', hrun, h'⟩ := h.inv.pops_through hmap hk.le hL
  -- the blocks of the buddy are smaller, so they are all still there
  have hfree : ∀ x, Has (buddy j k, k) x → Free (blocks (Function.update L k l₂)) x := by
    intro x hx
    obtain ⟨b, hbL, hbx⟩ := h.free (hsub _ hb x hx)
    have hlt : b.2 < k := h.order_lt hbL hbx hbd hx hbad
    refine ⟨b, ?_, hbx⟩
    rw [blocks, Set.mem_ofPred_eq, Function.update_of_ne hlt.ne]
    exact hbL
  have hnot : buddy j k ∉ Function.update L k l₂ k := by
    rw [Function.update_self]
    intro hm
    refine hbad (h.within (buddy j k, k) (show buddy j k ∈ L k from ?_))
    rw [hL]
    exact List.mem_append_right _ (List.mem_cons_of_mem _ hm)
  obtain ⟨d, hd'⟩ : ∃ d, maxOrder - k = d + 1 := ⟨maxOrder - k - 1, by omega⟩
  have hw := h'.holds.withCount (units B')
  obtain ⟨rest, heq, -⟩ := hw.coalesce_of_free (d := d) hk (h.le_total (hsub _ hb)) hfree
  refine h'.not_unlinksMembers (hrun.mono fun _ _ h => h.1) ?_ fun hm => hnot (hw.member_iff.mp hm)
  rw [hd', heq]
  exact List.mem_cons_self

/-- The first of four quarters comes back: it merges with its buddy, and the half they make asks for
the other half, which is two blocks. -/
theorem misses_of_first {q : ℕ} (h : AtStart us G s L) (hmap : G.Mapped) (hk : k + 1 < maxOrder)
    (hd : 2 ^ (k + 2) ∣ i) (husable : ∀ x, Has (i, k + 2) x → x ∈ usableFrames us)
    (hbad : ∀ p, 2 ^ (k + 1) ∣ p → Inside (p, k + 1) (i, k + 2) → ¬ InRegion us (p, k + 1))
    (hq : 2 ^ k ∣ q) (hqin : Inside (q, k) (i, k + 2)) (hL : L k = l₁ ++ q :: l₂)
    (hrest : ∀ a, 2 ^ k ∣ a → Inside (a, k) (i, k + 2) → a ≠ q → a ∈ l₂) : ¬ UnlinksMembers s := by
  obtain ⟨ops, s', B', hrun, h'⟩ := h.inv.pops_through hmap (by omega) hL
  have hw := h'.holds.withCount (units B')
  have hpos := Nat.two_pow_pos k
  have hsucc : 2 ^ (k + 1) = 2 ^ k + 2 ^ k := by rw [pow_succ]; omega
  have hsucc' : 2 ^ (k + 2) = 2 ^ (k + 1) + 2 ^ (k + 1) := by rw [pow_succ]; omega
  have hsub : ∀ c, Inside c (i, k + 2) → ∀ x, Has c x → x ∈ usableFrames us :=
    fun c hc x hx => husable x ⟨hc.1.trans hx.1, hx.2.trans_le hc.2⟩
  -- where the quarter's buddy, its half and the other half are
  obtain ⟨hpd, hbd, hcase⟩ := parent_cases hq
  have hpin : Inside (parent q k, k + 1) (i, k + 2) := parent_nested hq hd (by omega) hqin.1 hqin.2
  obtain ⟨-, hod, hcase'⟩ := parent_cases hpd
  have hroot : parent (parent q k) (k + 1) = i := by
    have := parent_nested hpd hd (by omega) hpin.1 hpin.2
    omega
  rw [hroot] at hcase'
  have hbin : Inside (buddy q k, k) (i, k + 2) := by
    simp only [Inside] at hpin ⊢
    omega
  have hoin : Inside (buddy (parent q k) (k + 1), k + 1) (i, k + 2) := by
    simp only [Inside] at hpin ⊢
    omega
  -- the first turn of the loop
  have hb : buddy q k ∈ Function.update L k l₂ k := by
    rw [Function.update_self]
    exact hrest _ hbd hbin (by omega)
  obtain ⟨s₂, hs₂, -, h₂⟩ := hw.takeBuddy (by omega) hb
  obtain ⟨d, hd'⟩ : ∃ d, maxOrder - k = d + 1 + 1 := ⟨maxOrder - k - 2, by omega⟩
  obtain ⟨rest, heq, hturn⟩ := hw.coalesce_of_free (d := d + 1) (by omega)
    (h.le_total (hsub _ hbin)) fun x hx => ⟨(buddy q k, k), hb, hx⟩
  obtain rfl := hturn s₂ hs₂
  -- the second: the other half is free, in two blocks
  have hfree : ∀ x, Has (buddy (parent q k) (k + 1), k + 1) x → Free (blocks (Function.update
      (Function.update L k l₂) k ((Function.update L k l₂ k).erase (buddy q k)))) x := by
    intro x hx
    have hy : Has (2 ^ k * (x / 2 ^ k), k) x :=
      ⟨Nat.mul_div_le x (2 ^ k), Nat.lt_mul_div_succ x hpos⟩
    have hyd : 2 ^ k ∣ 2 ^ k * (x / 2 ^ k) := Nat.dvd_mul_right _ _
    generalize 2 ^ k * (x / 2 ^ k) = y at hy hyd
    have hyin : Inside (y, k) (buddy (parent q k) (k + 1), k + 1) :=
      (nested_or_disjoint hyd hod (Nat.le_succ k)).resolve_right fun hoff =>
        (show Off (y, k) (buddy (parent q k) (k + 1), k + 1) from hoff).not_has hy hx
    refine ⟨(y, k), ?_, hy⟩
    rw [blocks, Set.mem_ofPred_eq, Function.update_self, Function.update_self]
    simp only [Inside] at hyin hoin hpin
    refine (List.mem_erase_of_ne (by omega)).mpr (hrest y hyd ?_ (by omega))
    simp only [Inside]
    omega
  obtain ⟨rest, heq', -⟩ := h₂.coalesce_of_free (d := d) hk (h.le_total (hsub _ hoin)) hfree
  refine h'.not_unlinksMembers (hrun.mono fun _ _ h => h.1)
    (c := ⟨s₂, buddy (parent q k) (k + 1), k + 1⟩) ?_ fun hm => ?_
  · rw [hd', heq, heq']
    exact List.mem_cons_of_mem _ List.mem_cons_self
  · have hne : k + 1 ≠ k := by omega
    have hlist := h₂.member_iff.mp hm
    rw [Function.update_of_ne hne, Function.update_of_ne hne] at hlist
    exact hbad _ hod hoin (h.within (buddy (parent q k) (k + 1), k + 1) hlist)

/-- **Four blocks around two borders**: the quarters of a usable range are in one region each, its
halves are not.  The first quarter to be handed out merges with its buddy when it comes back, and
the half they make then asks for the other half. -/
theorem misses_of_quarters (h : AtStart us G s L) (hmap : G.Mapped) (hk : k + 1 < maxOrder)
    (hd : 2 ^ (k + 2) ∣ i) (husable : ∀ x, Has (i, k + 2) x → x ∈ usableFrames us)
    (hgood : ∀ q, 2 ^ k ∣ q → Inside (q, k) (i, k + 2) → InRegion us (q, k))
    (hbad : ∀ p, 2 ^ (k + 1) ∣ p → Inside (p, k + 1) (i, k + 2) → ¬ InRegion us (p, k + 1)) :
    ¬ UnlinksMembers s := by
  have hpos := Nat.two_pow_pos k
  have hsucc : 2 ^ (k + 1) = 2 ^ k + 2 ^ k := by rw [pow_succ]; omega
  have hsucc' : 2 ^ (k + 2) = 2 ^ (k + 1) + 2 ^ (k + 1) := by rw [pow_succ]; omega
  have hsub : ∀ c, Inside c (i, k + 2) → ∀ x, Has c x → x ∈ usableFrames us :=
    fun c hc x hx => husable x ⟨hc.1.trans hx.1, hx.2.trans_le hc.2⟩
  -- the quarters are blocks
  have hpar : ∀ q, 2 ^ k ∣ q → Inside (q, k) (i, k + 2) → 2 ^ (k + 1) ∣ parent q k ∧
      Inside (parent q k, k + 1) (i, k + 2) := fun q hq hin =>
    ⟨(parent_cases hq).1, parent_nested hq hd (by omega) hin.1 hin.2⟩
  have hmem : ∀ q, 2 ^ k ∣ q → Inside (q, k) (i, k + 2) → q ∈ L k := fun q hq hin =>
    h.mem_list (by omega) hq (hsub _ hin) (hgood q hq hin)
      (hbad _ (hpar q hq hin).1 (hpar q hq hin).2)
  -- the first of them on the list
  obtain ⟨q, l₁, l₂, hL, ⟨hq, hqin⟩, hfirst⟩ : ∃ q l₁ l₂, L k = l₁ ++ q :: l₂ ∧
      (2 ^ k ∣ q ∧ Inside (q, k) (i, k + 2)) ∧
      ∀ a ∈ l₁, ¬ (2 ^ k ∣ a ∧ Inside (a, k) (i, k + 2)) := by
    classical
    have hi : 2 ^ k ∣ i := (Nat.pow_dvd_pow 2 (by omega)).trans hd
    have hin : Inside (i, k) (i, k + 2) := by
      simp only [Inside]
      omega
    have hsome : ((L k).find? fun a => decide (2 ^ k ∣ a ∧ Inside (a, k) (i, k + 2))).isSome := by
      rw [List.find?_isSome]
      exact ⟨i, hmem i hi hin, decide_eq_true ⟨hi, hin⟩⟩
    obtain ⟨q, hfind⟩ := Option.isSome_iff_exists.mp hsome
    obtain ⟨hq, l₁, l₂, hL, hfirst⟩ := List.find?_eq_some_iff_append.mp hfind
    exact ⟨q, l₁, l₂, hL, of_decide_eq_true hq, fun a ha =>
      of_decide_eq_false ((Bool.not_eq_true' _).mp (hfirst a ha))⟩
  have hrest : ∀ a, 2 ^ k ∣ a → Inside (a, k) (i, k + 2) → a ≠ q → a ∈ l₂ := by
    intro a ha hain hne
    have hm := hL ▸ hmem a ha hain
    rcases List.mem_append.mp hm with hm | hm
    · exact absurd ⟨ha, hain⟩ (hfirst a hm)
    · exact (List.mem_cons.mp hm).resolve_left hne
  exact misses_of_first h hmap hk hd husable hbad hq hqin hL hrest

/-- **Halves in one region are necessary**, by induction on the order: a half that is not, beside
one that is or beside one that is not either. -/
theorem AtStart.halvesInRegions (h : AtStart us G s L) (hmap : G.Mapped) (hun : UnlinksMembers s) :
    HalvesInRegions us := by
  intro i k
  induction k using Nat.strong_induction_on generalizing i with
  | _ k ih =>
    intro hk hd husable
    have hsucc : 2 ^ (k + 1) = 2 ^ k + 2 ^ k := by rw [pow_succ]; omega
    have hi : 2 ^ k ∣ i := (Nat.pow_dvd_pow 2 (Nat.le_succ k)).trans hd
    have hi' : 2 ^ k ∣ i + 2 ^ k := (Nat.dvd_add_right hi).mpr dvd_rfl
    have hbuddy : buddy i k = i + 2 ^ k := buddy_of_dvd hd
    have hbuddy' : buddy (i + 2 ^ k) k = i := by rw [← hbuddy, buddy_buddy]
    have hparent : parent i k = i := by rw [parent, hbuddy]; omega
    have hparent' : parent (i + 2 ^ k) k = i := by rw [parent, hbuddy']; omega
    by_cases h1 : InRegion us (i, k) <;> by_cases h2 : InRegion us (i + 2 ^ k, k)
    · exact ⟨h1, h2⟩
    · exact absurd hun (misses_of_half h hmap hk hi (hparent.symm ▸ husable) h1 (hbuddy.symm ▸ h2))
    · exact absurd hun (misses_of_half h hmap hk hi' (hparent'.symm ▸ husable) h2
        (hbuddy'.symm ▸ h1))
    · rcases k with _ | k
      · -- a single usable frame is in a region
        exact absurd (husable i ⟨le_rfl, by simp⟩).2 h1
      refine absurd hun (misses_of_quarters h hmap hk hd husable (fun q hq hin => ?_)
        fun p hp hin => ?_)
      · have hnest := parent_nested hq hd (by omega) hin.1 hin.2
        obtain ⟨hgood, hgood'⟩ := ih k (Nat.lt_succ_self k) (parent q k) (by omega)
          (parent_cases hq).1 fun x hx => husable x ⟨hnest.1.trans hx.1, hx.2.trans_le hnest.2⟩
        obtain ⟨-, -, ⟨hqp, -⟩ | ⟨hqp, -⟩⟩ := parent_cases hq
        · rw [← hqp] at hgood
          exact hgood
        · rw [← hqp] at hgood'
          exact hgood'
      · have hsucc' : 2 ^ (k + 2) = 2 ^ (k + 1) + 2 ^ (k + 1) := hsucc
        simp only [Inside] at hin
        rcases nested_or_disjoint hp hi le_rfl with hsame | hoff | hoff
        · obtain rfl : p = i := by omega
          exact h1
        · omega
        · obtain rfl : p = i + 2 ^ (k + 1) := by omega
          exact h2

/-! ## Both ways -/

/-- **Coalescing unlinks members of the lists only**, in every run, when each half of every usable
range is in one region; and only then, where the addresses exist. -/
theorem coalescing_unlinks_members (hal : ∀ r ∈ usableRegions regions, r.PageAligned)
    (hdis : (usableRegions regions).Pairwise MemoryRegion.Disjoint)
    (hnew : new regions offset mem = some a₀) :
    (HalvesInRegions (usableRegions regions) → UnlinksMembers ⟨a₀, []⟩) ∧
      (Buildable (usableRegions regions) offset → UnlinksMembers ⟨a₀, []⟩ →
        HalvesInRegions (usableRegions regions)) := by
  obtain ⟨h, L, hinv, hwithin⟩ := inv_of_new hal hdis hnew
  exact ⟨fun hhalf => hinv.unlinksMembers hhalf.asks, fun hbuild hun =>
    (AtStart.mk hinv hwithin rfl rfl).halvesInRegions (hbuild.mapped h) hun⟩

/-- Two touching regions of two frames each. -/
def evenRegions : List MemoryRegion :=
  [⟨0x100000, 0x102000, .usable⟩, ⟨0x102000, 0x104000, .usable⟩]

theorem halvesInRegions_evenRegions : HalvesInRegions (usableRegions evenRegions) := by
  intro i k hk hd husable
  have hpos := Nat.two_pow_pos k
  have hsucc : 2 ^ (k + 1) = 2 ^ k + 2 ^ k := by rw [pow_succ]; omega
  have htotal : tracked (usableRegions evenRegions) = 4 := by decide
  have hlast := (husable (i + 2 ^ (k + 1) - 1) ⟨by dsimp only; omega, by dsimp only; omega⟩).1
  rw [htotal] at hlast
  have hk1 : k ≤ 1 := by
    by_contra hk2
    have := Nat.pow_le_pow_right (show 0 < 2 by decide) (show 3 ≤ k + 1 by omega)
    omega
  have hi : (k = 0 ∧ (i = 0 ∨ i = 2)) ∨ (k = 1 ∧ i = 0) := by
    interval_cases k <;> omega
  rcases hi with ⟨rfl, rfl | rfl⟩ | ⟨rfl, rfl⟩ <;> decide

theorem coalescing_unlinks_members_evenRegions : ∃ a₀, new evenRegions 0 (fun _ => 0) = some a₀ ∧
    HalvesInRegions (usableRegions evenRegions) ∧ UnlinksMembers ⟨a₀, []⟩ := by
  obtain ⟨a₀, hnew⟩ := Option.isSome_iff_exists.mp
    (show (new evenRegions 0 fun _ => 0).isSome = true by decide +kernel)
  have hboth := coalescing_unlinks_members (by decide) (by decide) hnew
  exact ⟨a₀, hnew, halvesInRegions_evenRegions, hboth.1 halvesInRegions_evenRegions⟩

/-- A region of three frames and one of one frame right behind it. -/
def touchingRegions : List MemoryRegion :=
  [⟨0x100000, 0x103000, .usable⟩, ⟨0x103000, 0x104000, .usable⟩]

/-- **Across a border the merge loop unlinks a block that no list has**: frames 2 and 3 are free and
in different regions, so they are two blocks of order 0; freeing frames 0 and 1 removes them from
list 1 as one. -/
theorem remove_free_misses_list : (∀ r ∈ usableRegions touchingRegions, r.PageAligned) ∧
    (usableRegions touchingRegions).Pairwise MemoryRegion.Disjoint ∧
    ∃ a₀ s, new touchingRegions 0 (fun _ => 0) = some a₀ ∧
      Run Sys.exec Sys.Allowed ⟨a₀, []⟩ [.allocate 1] s ∧ (0x100000, 1) ∈ s.live ∧
      ∃ c ∈ s.alloc.removeCalls 0x100000 1, c.idx = 2 ∧ c.order = 1 ∧ ¬ c.Member := by
  refine ⟨by decide, by decide, ?_⟩
  have hgo : ((new touchingRegions 0 fun _ => 0).any fun a₀ =>
      (Sys.exec ⟨a₀, []⟩ (.allocate 1)).any fun s => decide ((0x100000, 1) ∈ s.live) &&
        (s.alloc.removeCalls 0x100000 1).any fun c =>
          c.idx == 2 && c.order == 1 && (c.state.freeLists 1).isNone) = true := by
    decide +kernel
  simp only [Option.any_eq_true, List.any_eq_true, Bool.and_eq_true, decide_eq_true_eq, beq_iff_eq,
    Option.isNone_iff_eq_none] at hgo
  obtain ⟨a₀, hnew, s, hs, hlive, c, hc, ⟨hidx, hord⟩, hnone⟩ := hgo
  refine ⟨a₀, s, hnew, .cons trivial hs (.nil s), hlive, c, hc, hidx, hord, ?_⟩
  rintro ⟨n, hn⟩
  rw [hord, nodeAt_of_none hnone] at hn
  exact nomatch hn

end YontiOs.Buddy
