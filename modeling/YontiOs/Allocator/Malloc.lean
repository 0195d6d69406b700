import YontiOs.Allocator.Heap

/-!
# Allocator/Malloc — the block `malloc` chooses, and what it carves out of it

`chosenBlock` is the block `find_block` pops: it is free, and large enough for the request with its
worst padding (`chosenBlock_spec`).  `alloc_from` then never runs into its too-small branch: it
carves the request out of the front of that block (`malloc_of_chosen`), and where no class is left
`malloc` returns null and changes nothing (`malloc_of_not_chosen`).
-/

namespace YontiOs

/-! ## Rounding up -/

variable {a al r j : ℕ}

theorem eight_dvd_two_pow (h : 8 ≤ 2 ^ j) : 8 ∣ 2 ^ j :=
  (show 8 = 2 ^ 3 by rfl) ▸ Nat.pow_dvd_pow 2 ((Nat.pow_le_pow_iff_right (by decide : 1 < 2)).mp h)

/-- Inside its bounds `align_up` rounds up to a multiple. -/
theorem alignUp_two_pow (h : a + 2 ^ j < 2 ^ 64) :
    alignUp a (2 ^ j) = some ((a + 2 ^ j - 1) / 2 ^ j * 2 ^ j) := by
  have hpos : 0 < 2 ^ j := Nat.two_pow_pos j
  rw [alignUp, if_pos ⟨j, rfl⟩, Word.add_of_lt h, Option.bind_eq_bind, Option.bind_some,
    Word.sub_of_le (by omega), Option.bind_some,
    Word.and_not_mask_toNat (by omega)]

/-- **What `align_up` returns**: the least multiple of a power of two from `a` on. -/
theorem alignUp_eq_some (h : alignUp a al = some r) :
    (∃ j, al = 2 ^ j) ∧ a + al < 2 ^ 64 ∧ al ∣ r ∧ a ≤ r ∧ r < a + al := by
  have hp : al.isPowerOfTwo := by
    by_contra hno
    rw [alignUp, if_neg hno] at h
    cases h
  obtain ⟨j, rfl⟩ := hp
  have hlt : a + 2 ^ j < 2 ^ 64 := by
    by_contra hno
    rw [alignUp, if_pos ⟨j, rfl⟩, Word.add, if_neg hno] at h
    cases h
  rw [alignUp_two_pow hlt, Option.some.injEq] at h
  have hpos : 0 < 2 ^ j := Nat.two_pow_pos j
  have hdm := Nat.div_add_mod (a + 2 ^ j - 1) (2 ^ j)
  have hmod := Nat.mod_lt (a + 2 ^ j - 1) hpos
  rw [mul_comm] at hdm
  exact ⟨⟨j, rfl⟩, hlt, h ▸ dvd_mul_left _ _, by omega, by omega⟩

/-- A larger address rounds up to no less. -/
theorem alignUp_mono {a' r' : ℕ} (haa : a ≤ a') (h : alignUp a al = some r)
    (h' : alignUp a' al = some r') : r ≤ r' := by
  obtain ⟨-, -, ⟨c, rfl⟩, -, hlt⟩ := alignUp_eq_some h
  obtain ⟨-, -, ⟨c', rfl⟩, hle', -⟩ := alignUp_eq_some h'
  by_contra hno
  have hcc : c' + 1 ≤ c := Nat.lt_of_mul_lt_mul_left (not_le.mp hno)
  have := Nat.mul_le_mul_left al hcc
  rw [mul_add, mul_one] at this
  omega

namespace Tlsf

open TlsfAllocator

variable {m m' : Mem} {L : ℕ × ℕ → List ℕ} {s s' : TlsfAllocator} {H n t x f k fli sl : ℕ}
  {size align needed : ℕ} {p q b : Block} {bs X Z : List Block}

/-! ## The choice of a block -/

/-- The block `malloc(size, align)` allocates from, if it finds one. -/
def TlsfAllocator.chosenBlock (s : TlsfAllocator) (size align : ℕ) : Option ℕ := do
  let needed ← neededFor size (max align headerSize)
  let (fli, sl) ← mapping needed
  let (fl2, sl2) ← s.chooseClass (min fli (flCount - 1)) sl needed
  s.freeLists fl2 sl2

/-- The loop over one first level finds nothing when no bucket from `sl` on suits. -/
theorem scan_eq_none_iff :
    s.scan fli sl needed = none ↔ ∀ k, sl ≤ k → s.suits fli needed k = false := by
  have hbit : ∀ k, s.suits fli needed k = true → sl ≤ k →
      (s.slBitmaps fli &&& BitVec.allOnes 32 <<< sl).getLsbD k = true := by
    intro k hk hle
    rw [suits, Bool.and_eq_true] at hk
    rw [Word.getLsbD_and_high, hk.1, Bool.true_and, decide_eq_true_eq]
    exact hle
  rw [scan]
  split_ifs with hne
  · obtain ⟨-, hset, hlow⟩ := Word.trailingZeros_spec hne
    generalize Word.trailingZeros (s.slBitmaps fli &&& BitVec.allOnes 32 <<< sl) = start at *
    rw [Word.getLsbD_and_high, Bool.and_eq_true, decide_eq_true_eq] at hset
    rw [List.find?_eq_none]
    simp only [List.mem_range'_1, Bool.not_eq_true, slCount]
    refine ⟨fun h k hk => ?_, fun h k hk => h k (by omega)⟩
    by_contra hsuit
    rw [Bool.not_eq_false] at hsuit
    have hmem := hbit k hsuit hk
    have hge : start ≤ k := by
      by_contra hlt
      rw [hlow k (by omega)] at hmem
      cases hmem
    have hlt := BitVec.lt_of_getLsbD hmem
    rw [h k (by omega)] at hsuit
    cases hsuit
  · refine iff_of_true rfl fun k hk => ?_
    by_contra hsuit
    rw [Bool.not_eq_false] at hsuit
    exact hne (Word.ne_zero_iff.mpr ⟨k, hbit k hsuit hk⟩)

/-- **`find_block` finds nothing** when no bucket of its first level suits, and no higher first
level has a bucket. -/
theorem chooseClass_eq_none_iff :
    s.chooseClass fli sl needed = none ↔ (∀ k, sl ≤ k → s.suits fli needed k = false) ∧
      ∀ f, fli < f → s.flBitmap.getLsbD f = false := by
  have hhigh : s.flBitmap &&& BitVec.allOnes 32 <<< (fli + 1) ≠ 0 ↔
      ∃ f, fli < f ∧ s.flBitmap.getLsbD f = true := by
    simp only [Word.ne_zero_iff, Word.getLsbD_and_high, Bool.and_eq_true, decide_eq_true_eq,
      Nat.succ_le_iff, and_comm]
  rw [← scan_eq_none_iff, chooseClass]
  cases hscan : s.scan fli sl needed with
  | some sl2 => simp
  | none =>
    simp only [true_and]
    split_ifs with hne
    · obtain ⟨f, hf, hbit⟩ := hhigh.mp hne
      refine iff_of_false (by simp) fun h => ?_
      rw [h f hf] at hbit
      cases hbit
    · refine iff_of_true rfl fun f hf => ?_
      by_contra hbit
      exact hne (hhigh.mpr ⟨f, hf, by simpa using hbit⟩)

/-- **The class `find_block` settles on** has a block: a bucket of the request's own first level
that suits, or one of a higher first level. -/
theorem Roots.chooseClass_cases (h : Roots s L) (hc : s.chooseClass fli sl needed = some (f, k)) :
    L (f, k) ≠ [] ∧ (f = fli ∧ s.suits fli needed k = true ∨ fli < f) := by
  rw [chooseClass] at hc
  cases hscan : s.scan fli sl needed with
  | some sl2 =>
    rw [hscan] at hc
    obtain ⟨rfl, rfl⟩ := Prod.mk.inj (Option.some.inj hc)
    have hsuit : s.suits fli needed sl2 = true := by
      rw [scan] at hscan
      split_ifs at hscan
      exact List.find?_some hscan
    refine ⟨?_, .inl ⟨rfl, hsuit⟩⟩
    rw [suits, Bool.and_eq_true, h.slBit] at hsuit
    exact hsuit.1
  | none =>
    rw [hscan] at hc
    simp only at hc
    split_ifs at hc with hmap0
    obtain ⟨hfl, hsl⟩ := Prod.mk.inj (Option.some.inj hc)
    obtain ⟨-, hbit, -⟩ := Word.trailingZeros_spec hmap0
    rw [hfl, Word.getLsbD_and_high, Bool.and_eq_true, decide_eq_true_eq, h.flBit] at hbit
    rw [hfl] at hsl
    obtain ⟨-, hbit2, -⟩ := Word.trailingZeros_spec hbit.1
    rw [hsl, h.slBit] at hbit2
    exact ⟨hbit2, .inr (by omega)⟩

/-- A list that is not empty has a head, which is a free block of the class. -/
theorem Hole.exists_head (h : Hole H s [] 0 sentinel bs L) (hne : L (f, k) ≠ []) :
    f < flCount ∧ k < slCount ∧ ∃ b n, s.freeLists f k = some b ∧ (b, ⟨n, true⟩) ∈ place H bs ∧
      mapping n = some (f, k) ∧ (header s.mem b).size = n := by
  obtain ⟨b, l, hL⟩ := List.exists_cons_of_ne_nil hne
  obtain ⟨n, hn, hmap⟩ := (h.lists f k b).mp (hL ▸ List.mem_cons_self)
  obtain ⟨hf, hk⟩ := h.index.roots.range f k hne
  have hplace : (b, ⟨n, true⟩) ∈ place H bs := by simpa using hn
  refine ⟨hf, hk, b, n, by rw [h.index.roots.head, hL, List.head?_cons], hplace, hmap, ?_⟩
  obtain ⟨xs, ys, rfl, rfl⟩ := exists_split_of_mem_place hplace
  have hback := h.back
  rw [List.append_assoc] at hback
  have hmod : n % 8 = 0 := (sized_cons.mp (sized_append.mp h.backSized).2).1.1
  have hsmall := h.region.small
  simp only [total_append, total_cons, total_nil] at hsmall
  have hhead := hback.header_middle
  simp only [total_nil, add_zero] at hhead
  rw [hhead]
  exact size_tagged (by omega) (by omega)

/-- The head of the list `find_block` settles on is a free block that is large enough. -/
theorem chooseClass_spec (h : Hole H s [] 0 sentinel bs L) (h64 : needed < 2 ^ 64)
    (hm : mapping needed = some (fli, sl)) (hc : s.chooseClass fli sl needed = some (f, k)) :
    f < flCount ∧ k < slCount ∧ ∃ b n, s.freeLists f k = some b ∧ (b, ⟨n, true⟩) ∈ place H bs ∧
      mapping n = some (f, k) ∧ needed ≤ n := by
  obtain ⟨hne, hcases⟩ := h.index.roots.chooseClass_cases hc
  obtain ⟨hf, hk, b, n, hb, hn, hmap, hsize⟩ := h.exists_head hne
  refine ⟨hf, hk, b, n, hb, hn, hmap, ?_⟩
  rcases hcases with ⟨rfl, hsuit⟩ | hlt
  · rw [suits, Bool.and_eq_true] at hsuit
    have hle := hsuit.2
    simpa only [hb, decide_eq_true_eq, hsize] using hle
  · have hn64 : n < 2 ^ 64 := by
      have hfits := h.region.fits
      have := (place_bounds hn).2.2
      simp only [total_nil] at hfits this
      omega
    exact (lt_of_mapping_fst_lt h64 hm hn64 hmap hlt).le

/-! ## Carving -/

/-- The blocks an allocation of `t` bytes makes of a free block of `n` bytes. -/
def carve (t n : ℕ) : List Block :=
  if t + minBlockSize ≤ n then [⟨t, false⟩, ⟨n - t, true⟩] else [⟨n, false⟩]

theorem takeBlock_spec (h : Hole H s X n ⟨n, true⟩ Z L) (hown : Owned H s X n) (h32 : 32 ≤ n) :
    ∃ s', s.takeBlock (H + total X) n = some s' ∧ Hole H s' (X ++ [⟨n, false⟩]) 0 ⟨n, false⟩ Z L ∧
      ∀ x, Kept H X n Z x → s'.mem x = s.mem x := by
  have hfits := h.region.fits
  have hmod := h.aligned
  obtain ⟨hole₁, hk₁⟩ := h.setHeader_own (by omega) ((header s.mem (H + total X)).markFree false)
  set s₁ := s.setHeader (H + total X) ((header s.mem (H + total X)).markFree false) with hs₁
  have hown₁ : header s₁.mem (H + total X)
      = tagged (X.getLastD sentinel).size n false (X.getLastD sentinel).free := by
    refine header_putHeader_self.trans ?_
    rw [hown]
    exact markFree_tagged (by omega)
  have hv : (header s₁.mem (H + total X + n)).markPrevFree false
      = tagged n (Z.headD sentinel).size (Z.headD sentinel).free false := by
    rw [hole₁.header_next]
    exact markPrevFree_tagged hole₁.next_mod
  obtain ⟨hole₂, hk₂⟩ := hole₁.rewrite (p := ⟨n, false⟩)
    (fun x hx => putHeader_of_notMem (by omega)) (header_putHeader_self.trans hv)
  refine ⟨s₁.setHeader (H + total X + n) _, ?_, ?_, fun x hx => (hk₂ x hx).trans (hk₁ x hx)⟩
  · simp only [takeBlock, Word.add_of_lt (show H + total X + n < 2 ^ 64 by omega),
      derefHeader_of_dvd h.dvd_next, Option.bind_eq_bind, Option.bind_some]
    rfl
  · refine Hole.fillUsed (r := 0) hole₂ hmod h32 (Eq.trans ?_ hown₁)
    exact header_putHeader_of_disjoint (by omega)

theorem splitBlock_spec {r : ℕ} (h : Hole H s X (t + r) q Z L) (hown : Owned H s X (t + r))
    (ht : t % 8 = 0) (h32 : 32 ≤ t) (hr : 32 ≤ r) :
    ∃ s' L', s.splitBlock (H + total X) t r = some s' ∧
      Hole H s' (X ++ [⟨t, false⟩] ++ [⟨r, true⟩]) 0 ⟨r, true⟩ Z L' ∧
      ∀ x, Kept H X (t + r) Z x → s'.mem x = s.mem x := by
  have hfits := h.region.fits
  have hsmall := h.region.small
  have hpos := h.region.pos
  have hmod := h.aligned
  -- the front of the hole is allocated
  have hset₁ : (header s.mem (H + total X)).set t false (header s.mem (H + total X)).prevIsFree
      = some (tagged (X.getLastD sentinel).size t false (X.getLastD sentinel).free) := by
    rw [hown, prevIsFree_tagged (by omega)]
    exact set_eq_tagged rfl (by omega)
  obtain ⟨hole₁, hk₁⟩ := h.setHeader_own (by omega)
    (tagged (X.getLastD sentinel).size t false (X.getLastD sentinel).free)
  have hown₁ := header_setHeader_self (s := s) (a := H + total X)
    (v := tagged (X.getLastD sentinel).size t false (X.getLastD sentinel).free)
  generalize hs₁ : s.setHeader (H + total X)
    (tagged (X.getLastD sentinel).size t false (X.getLastD sentinel).free) = s₁ at *
  have hole₂ := hole₁.fillUsed ht h32 hown₁
  have htot : H + total (X ++ [⟨t, false⟩]) = H + total X + t := by
    simp
    omega
  have hkept : ∀ x, Kept H X (t + r) Z x → Kept H (X ++ [⟨t, false⟩]) r Z x := by
    rintro x ((hx | hx) | hx)
    · exact .inl (.inl (payload_append.mpr (.inl hx)))
    · exact .inl (.inr (by rwa [htot, add_assoc]))
    · exact .inr (by rw [htot]; omega)
  -- the rest becomes a free block
  have hset₂ : ({ header s₁.mem (H + total X + t) with prevPhysSize := BitVec.ofNat 32 t }).set r
      true false = some (tagged t r true false) := set_eq_tagged rfl (by omega)
  obtain ⟨hole₃, hk₃⟩ := hole₂.setHeader_own (by omega) (tagged t r true false)
  obtain ⟨hole₄, hk₄, hh₄⟩ := hole₃.setHeader_next
  have hown₄ := hh₄ (H + total (X ++ [⟨t, false⟩])) (by omega)
  rw [header_setHeader_self] at hown₄
  obtain ⟨s', L', hins, hole₅, hk₅⟩ := hole₄.fillFree hr (by rw [hown₄, List.getLastD_concat])
  refine ⟨s', L', ?_, hole₅, fun x hx => ?_⟩
  · have hderef := hole₂.dvd
    have hderef' := hole₂.dvd_next
    rw [htot] at hins hderef hderef'
    simp only [splitBlock, hset₁, Option.bind_eq_bind, Option.bind_some, hs₁,
      Word.add_of_lt (show H + total X + t < 2 ^ 64 by omega), derefHeader_of_dvd hderef, hset₂,
      Word.add_of_lt (show H + total X + t + r < 2 ^ 64 by omega), derefHeader_of_dvd hderef',
      nonNull, if_neg (show H + total X + t ≠ 0 by omega)]
    exact hins
  · rw [hk₅ x (hkept x hx), hk₄ x (hkept x hx), hk₃ x (hkept x hx), hk₁ x hx]

/-- A block that passes the size check is split if the rest can be a block, and else taken whole. -/
theorem allocFrom_of_le {ptr : ℕ} (ha : 8 ∣ a) (hsize : (header s.mem a).size = n)
    (hn : n < 2 ^ 32) (hptr : alignUp (a + 8) align = some ptr)
    (ht : alignUp (ptr - a + size) 8 = some t) (hle : max t 32 ≤ n) : s.allocFrom a size align =
      if max t 32 + 32 ≤ n then (s.splitBlock a (max t 32) (n - max t 32)).map (ptr, ·)
      else (s.takeBlock a n).map (ptr, ·) := by
  obtain ⟨-, hptr64, -, hge, -⟩ := alignUp_eq_some hptr
  obtain ⟨-, -, -, htge, -⟩ := alignUp_eq_some ht
  have hstart : Word.add a headerSize = some (a + 8) :=
    Word.add_of_lt (by simp only [headerSize]; omega)
  have hfront : Word.sub ptr (a + 8) = some (ptr - (a + 8)) := Word.sub_of_le hge
  have hpad : Word.add headerSize (ptr - (a + 8)) = some (ptr - a) := by
    simp only [headerSize]
    rw [Word.add_of_lt (by omega)]
    congr 1
    omega
  have hwhole : Word.add (ptr - a) size = some (ptr - a + size) := Word.add_of_lt (by omega)
  have hroom : Word.add (max t 32) 32 = some (max t 32 + 32) := Word.add_of_lt (by omega)
  simp only [allocFrom, derefHeader_of_dvd ha, hsize, hstart, hptr, hfront, hpad, hwhole, ht,
    Option.bind_eq_bind, Option.bind_some, show minBlockSize = 32 from rfl,
    if_neg (not_lt.mpr hle), hroom, Word.sub_of_le hle]
  split_ifs <;> simp only [Option.map_eq_bind, Function.comp_def]

/-- **Carving keeps the heap in order**: the popped block is handed out from its front, and what is
left of it, if it is a block, is free again. -/
theorem allocFrom_spec {ptr : ℕ} (h : Hole H s X n ⟨n, true⟩ Z L) (hown : Owned H s X n)
    (hptr : alignUp (H + total X + 8) align = some ptr)
    (ht : alignUp (ptr - (H + total X) + size) 8 = some t) (hle : max t 32 ≤ n) :
    ∃ s' L', s.allocFrom (H + total X) size align = some (ptr, s') ∧
      Hole H s' [] 0 sentinel (X ++ carve (max t 32) n ++ Z) L' ∧
      ∀ x, Kept H X n Z x → s'.mem x = s.mem x := by
  have hfits := h.region.fits
  have hsmall := h.region.small
  have hmod := h.aligned
  obtain ⟨-, -, ⟨c, hc⟩, -, -⟩ := alignUp_eq_some ht
  have hsize : (header s.mem (H + total X)).size = n := by
    rw [hown]
    exact size_tagged (by omega) (by omega)
  rw [allocFrom_of_le h.dvd hsize (by omega) hptr ht hle, carve, show minBlockSize = 32 from rfl]
  split_ifs with hsplit
  · have hn : max t 32 + (n - max t 32) = n := by omega
    obtain ⟨s', L', heq, hole', hk⟩ := splitBlock_spec (t := max t 32) (r := n - max t 32)
      (q := ⟨n, true⟩)
      (by rw [hn]; exact h) (by rw [hn]; exact hown) (by omega) (le_max_right _ _) (by omega)
    rw [hn] at hk
    refine ⟨s', L', by rw [heq]; rfl, ?_, hk⟩
    have := (Hole.slide (X := X ++ [⟨max t 32, false⟩] ++ [⟨n - max t 32, true⟩])).mp
      (by rwa [List.getLastD_concat])
    simpa using this
  · obtain ⟨s', heq, hole', hk⟩ := takeBlock_spec h hown ((le_max_right _ _).trans hle)
    refine ⟨s', L, by rw [heq]; rfl, ?_, hk⟩
    exact (Hole.slide (X := X ++ [⟨n, false⟩])).mp (by rwa [List.getLastD_concat])

/-- Carving an allocation out of a free block leaves no two neighbours free. -/
theorem coalesced_carve (h : Coalesced (X ++ ⟨n, true⟩ :: Z)) :
    Coalesced (X ++ carve t n ++ Z) := by
  obtain ⟨hX, hZ, hXZ⟩ := List.isChain_append.mp h
  have hback : ∀ c, Coalesced (⟨c, true⟩ :: Z) := by
    intro c
    cases Z with
    | nil => exact List.isChain_singleton _
    | cons d Z =>
      obtain ⟨hd, hZ⟩ := List.isChain_cons_cons.mp hZ
      exact List.isChain_cons_cons.mpr ⟨by simpa using hd, hZ⟩
  rw [List.append_assoc, carve]
  split_ifs
  · refine List.isChain_append.mpr ⟨hX, List.isChain_cons_cons.mpr ⟨by simp, hback _⟩, ?_⟩
    rintro x - y hy
    obtain rfl := Option.some.inj hy
    simp
  · refine List.isChain_append.mpr ⟨hX, ?_, ?_⟩
    · cases Z with
      | nil => exact List.isChain_singleton _
      | cons d Z => exact List.isChain_cons_cons.mpr ⟨by simp, (List.isChain_cons_cons.mp hZ).2⟩
    · rintro x - y hy
      obtain rfl := Option.some.inj hy
      simp

/-! ## `malloc` -/

theorem neededFor_eq_some (h8 : 8 ≤ align) (h : neededFor size align = some needed) :
    ∃ t, alignUp (align + size) 8 = some t ∧ needed = max t 32 := by
  simp only [neededFor, Option.bind_eq_bind, Option.bind_eq_some_iff, headerSize, minBlockSize,
    Option.some.injEq] at h
  obtain ⟨pad, hpad, whole, hwhole, t, ht, rfl⟩ := h
  obtain ⟨rfl, -⟩ := Word.add_eq_some hpad
  obtain ⟨rfl, -⟩ := Word.add_eq_some hwhole
  refine ⟨t, ?_, rfl⟩
  rwa [show 8 + (align - 8) = align by omega] at ht

/-- The choice of a block, cut into the steps of `malloc`. -/
theorem chosenBlock_eq_some (h : s.chosenBlock size align = some a) :
    ∃ needed fli sl f k, neededFor size (max align 8) = some needed ∧
      mapping needed = some (fli, sl) ∧ s.chooseClass fli sl needed = some (f, k) ∧
      s.freeLists f k = some a := by
  simp only [chosenBlock, Option.bind_eq_bind, Option.bind_eq_some_iff] at h
  obtain ⟨needed, hneed, ⟨fli, sl⟩, hmap, ⟨f, k⟩, hcls, hb⟩ := h
  have hmin := min_fst_of_mapping hmap
  exact ⟨needed, fli, sl, f, k, hneed, hmap, hmin ▸ hcls, hb⟩

/-- Where all heads are aligned `find_block` may look at them. -/
theorem peeked_aligned (h : ∀ f k b, s.freeLists f k = some b → 8 ∣ b) :
    (s.peeked fli sl needed).forM derefHeader = some () := by
  have hmem : ∀ b ∈ s.peeked fli sl needed, 8 ∣ b := by
    intro b hb
    rw [peeked] at hb
    split_ifs at hb
    · obtain ⟨sl2, -, hsl2⟩ := List.mem_filterMap.mp hb
      split_ifs at hsl2
      exact h fli sl2 b hsl2
    · cases hb
  generalize s.peeked fli sl needed = bs at hmem
  induction bs with
  | nil => rfl
  | cons b bs ih =>
    rw [List.forall_mem_cons] at hmem
    rw [List.forM, derefHeader_of_dvd hmem.1]
    exact ih hmem.2

theorem Index.peeked (h : Index s L) : (s.peeked fli sl needed).forM derefHeader = some () :=
  peeked_aligned h.aligned

/-- **`find_block` pops a free block** that is large enough, and leaves a hole in its place. -/
theorem findBlock_spec (h : AtRest H s bs L) (h64 : needed < 2 ^ 64)
    (hm : mapping needed = some (fli, sl)) (hc : s.chooseClass fli sl needed = some (f, k)) :
    ∃ X n Z s₁ L₁, bs = X ++ ⟨n, true⟩ :: Z ∧ needed ≤ n ∧ s.freeLists f k = some (H + total X) ∧
      s.findBlock fli sl needed = some (some (H + total X), s₁) ∧
      Hole H s₁ X n ⟨n, true⟩ Z L₁ ∧ Owned H s₁ X n ∧
      ∀ x, Kept H X n Z x → s₁.mem x = s.mem x := by
  obtain ⟨hf, hk, b, n, hb, hplace, -, hle⟩ := chooseClass_spec h.hole h64 hm hc
  obtain ⟨X, Z, rfl, rfl⟩ := exists_split_of_mem_place hplace
  have hole₀ := Hole.slide.mpr h.hole
  obtain ⟨s₁, L₁, hrem, hole₁, hk₁, hin⟩ := hole₀.absorbNext
  simp only [zero_add, add_zero] at hole₁ hrem hk₁ hin
  refine ⟨X, n, Z, s₁, L₁, rfl, hle, hb, ?_, hole₁, ?_, hk₁⟩
  · simp only [findBlock, h.hole.index.peeked, hc, pop, if_pos (And.intro hf hk), hb, hrem,
      Option.bind_eq_bind, Option.bind_some]
  · rw [Owned, header_congr fun x h1 h2 => hin x h1 h2]
    exact hole₀.header_next

/-- The padding before an aligned pointer is at most the alignment less the header. -/
theorem padding_le {ptr : ℕ} (ha : a % 8 = 0) (h8 : 8 ≤ align)
    (hptr : alignUp (a + 8) align = some ptr) : a + 8 ≤ ptr ∧ ptr ≤ a + align ∧ align ∣ ptr := by
  obtain ⟨⟨j, rfl⟩, -, hdvd, hge, hlt⟩ := alignUp_eq_some hptr
  refine ⟨hge, ?_, hdvd⟩
  have hdvd8 := eight_dvd_two_pow h8
  have := hdvd8.trans hdvd
  omega

/-- What an allocation `malloc(size, align) = ptr` makes of the blocks `bs`: it takes a free block
at `a`, and hands out its first `t` bytes. -/
structure Carves (H : ℕ) (bs : List Block) (a size align ptr : ℕ) (bs' : List Block) : Prop where
  intro ::
  exists_carve : ∃ X n Z t, bs = X ++ ⟨n, true⟩ :: Z ∧ bs' = X ++ carve t n ++ Z ∧
    a = H + total X ∧ 32 ≤ t ∧ t ≤ n ∧ ptr + size ≤ a + t
  ptr_ge : a + 8 ≤ ptr
  ptr_lt : ptr < a + 8 + max align 8
  ptr_dvd : max align 8 ∣ ptr

/-- The pointer stands right behind the header when that place is aligned, and only then. -/
theorem Carves.ptr_eq_iff {ptr : ℕ} {bs' : List Block} (h : Carves H bs a size align ptr bs') :
    ptr = a + 8 ↔ max align 8 ∣ a + 8 := by
  constructor
  · exact fun heq => heq ▸ h.ptr_dvd
  · intro hdvd
    have hsub : max align 8 ∣ ptr - (a + 8) := Nat.dvd_sub h.ptr_dvd hdvd
    have hlt : ptr - (a + 8) < max align 8 := by
      have := h.ptr_lt
      have := h.ptr_ge
      omega
    have := Nat.eq_zero_of_dvd_of_lt hsub hlt
    have := h.ptr_ge
    omega

/-- What `alloc_from` takes off the front of a block is no more than `find_block` was asked for. -/
theorem consumed_le {ptr t' : ℕ} (ha : a % 8 = 0) (hptr : alignUp (a + 8) (max align 8) = some ptr)
    (ht' : alignUp (max align 8 + size) 8 = some t') :
    ∃ t, alignUp (ptr - a + size) 8 = some t ∧ t ≤ t' := by
  obtain ⟨hge, hpad, -⟩ := padding_le ha (le_max_right _ _) hptr
  obtain ⟨-, h64, -⟩ := alignUp_eq_some ht'
  obtain ⟨t, ht⟩ : ∃ t, alignUp (ptr - a + size) 8 = some t :=
    ⟨_, alignUp_two_pow (j := 3) (by omega)⟩
  exact ⟨t, ht, alignUp_mono (by omega) ht ht'⟩

/-- **`malloc` with a block to take**: it returns the aligned pointer, and carves. -/
theorem malloc_of_chosen {ptr : ℕ} (h : AtRest H s bs L) (hc : s.chosenBlock size align = some a)
    (hptr : alignUp (a + 8) (max align 8) = some ptr) :
    ∃ s' bs' L', s.malloc size align = some (ptr, s') ∧ AtRest H s' bs' L' ∧
      Carves H bs a size align ptr bs' ∧ ∀ x, Kept H [] 0 bs x → s'.mem x = s.mem x := by
  obtain ⟨needed, fli, sl, f, k, hneed, hmap, hcls, hb⟩ := chosenBlock_eq_some hc
  obtain ⟨t', ht', rfl⟩ := neededFor_eq_some (le_max_right _ _) hneed
  obtain ⟨-, ht64', -, -, htlt'⟩ := alignUp_eq_some ht'
  obtain ⟨X, n, Z, s₁, L₁, rfl, hle, hb', hfind, hole₁, hown, hk₁⟩ :=
    findBlock_spec h (by omega) hmap hcls
  obtain rfl : a = H + total X := Option.some.inj (hb.symm.trans hb')
  -- the padding is at most the one `needed` allows for
  have hmod : (H + total X) % 8 = 0 := Nat.mod_eq_zero_of_dvd hole₁.dvd
  obtain ⟨hge, hpad, hdvd⟩ := padding_le hmod (le_max_right _ _) hptr
  obtain ⟨t, ht, htt⟩ := consumed_le hmod hptr ht'
  obtain ⟨-, -, -, htge, -⟩ := alignUp_eq_some ht
  obtain ⟨s', L', halloc, hole', hk₂⟩ := allocFrom_spec hole₁ hown hptr ht (by omega)
  refine ⟨s', _, L', ?_, ⟨hole', coalesced_carve h.coalesced⟩,
    ⟨⟨X, n, Z, max t 32, rfl, rfl, rfl, by omega, by omega, by omega⟩, hge, by omega, hdvd⟩,
    fun x hx => ?_⟩
  · simp only [malloc, show headerSize = 8 from rfl, hneed, hmap, min_fst_of_mapping hmap, hfind,
      Option.bind_eq_bind, Option.bind_some]
    exact halloc
  · have hx' : Kept H X n Z x := by
      rw [← kept_zero] at hx
      simpa using kept_cons_free.mp hx
    rw [hk₂ x hx', hk₁ x hx']

/-- **`malloc` with no block to take** returns null and changes nothing. -/
theorem malloc_of_not_chosen {r : ℕ × TlsfAllocator} (h : AtRest H s bs L)
    (hc : s.chosenBlock size align = none) (hr : s.malloc size align = some r) : r = (0, s) := by
  simp only [malloc, Option.bind_eq_bind, Option.bind_eq_some_iff] at hr
  obtain ⟨needed, hneed, ⟨fli, sl⟩, hmap, ⟨b?, s₁⟩, hfind, hr⟩ := hr
  have hmin := min_fst_of_mapping hmap
  rw [hmin] at hfind
  simp only [chosenBlock, hneed, hmap, hmin, Option.bind_eq_bind, Option.bind_some] at hc
  cases hcls : s.chooseClass fli sl needed with
  | none =>
    rw [findBlock, hcls, h.hole.index.peeked] at hfind
    obtain ⟨rfl, rfl⟩ := Prod.mk.inj (Option.some.inj hfind)
    exact (Option.some.inj hr).symm
  | some fk =>
    obtain ⟨t, ht, rfl⟩ := neededFor_eq_some (le_max_right _ _) hneed
    obtain ⟨-, h64, -, -, hlt⟩ := alignUp_eq_some ht
    obtain ⟨-, -, b, n, hb, -⟩ := chooseClass_spec h.hole (by omega) hmap hcls
    rw [hcls, Option.bind_some, hb] at hc
    cases hc

/-- A `malloc` that returns has rounded its pointer up. -/
theorem alignUp_of_malloc {r : ℕ × TlsfAllocator} (hc : s.chosenBlock size align = some a)
    (hr : s.malloc size align = some r) : ∃ ptr, alignUp (a + 8) (max align 8) = some ptr := by
  obtain ⟨needed, fli, sl, f, k, hneed, hmap, hcls, hb⟩ := chosenBlock_eq_some hc
  have hmin := min_fst_of_mapping hmap
  simp only [malloc, show headerSize = 8 from rfl, hneed, hmap, hmin, Option.bind_eq_bind,
    Option.bind_some, Option.bind_eq_some_iff, findBlock, hcls, pop, hb] at hr
  obtain ⟨⟨b, s₁⟩, ⟨_, -, ⟨b', s₂⟩, hpop, heq⟩, halloc⟩ := hr
  split_ifs at hpop
  simp only [Option.bind_eq_some_iff] at hpop
  obtain ⟨s₃, -, hpop⟩ := hpop
  obtain ⟨rfl, rfl⟩ := Prod.mk.inj (Option.some.inj hpop)
  obtain ⟨rfl, rfl⟩ := Prod.mk.inj (Option.some.inj heq)
  simp only [allocFrom, Option.bind_eq_bind, Option.bind_eq_some_iff] at halloc
  obtain ⟨_, -, start, hstart, ptr, hptr, -⟩ := halloc
  obtain ⟨rfl, -⟩ := Word.add_eq_some hstart
  exact ⟨ptr, hptr⟩

/-- **The two ways `malloc` returns.** -/
theorem malloc_cases {ptr : ℕ} (h : AtRest H s bs L) (hr : s.malloc size align = some (ptr, s')) :
    (s.chosenBlock size align = none ∧ ptr = 0 ∧ s' = s) ∨
      ∃ a bs' L', s.chosenBlock size align = some a ∧ AtRest H s' bs' L' ∧
        Carves H bs a size align ptr bs' ∧ ∀ x, Kept H [] 0 bs x → s'.mem x = s.mem x := by
  cases hc : s.chosenBlock size align with
  | none => exact .inl ⟨rfl, Prod.mk.inj (malloc_of_not_chosen h hc hr)⟩
  | some a =>
    obtain ⟨ptr', hptr⟩ := alignUp_of_malloc hc hr
    obtain ⟨s'', bs', L', hr', hrest, hcarve, hk⟩ := malloc_of_chosen h hc hptr
    obtain ⟨rfl, rfl⟩ := Prod.mk.inj (Option.some.inj (hr.symm.trans hr'))
    exact .inr ⟨a, bs', L', rfl, hrest, hcarve, hk⟩

/-- What a request asks of a block: its size, the header and the worst padding, rounded up. -/
def neededSize (size align : ℕ) : ℕ := max ((max align 8 + size + 7) / 8 * 8) 32

theorem neededFor_eq (h : max align 8 + size + 8 < 2 ^ 64) :
    neededFor size (max align 8) = some (neededSize size align) := by
  have hpad : Word.add 8 (max align 8 - 8) = some (max align 8) := by
    rw [Word.add_of_lt (by omega)]
    congr 1
    omega
  have hround := alignUp_two_pow (a := max align 8 + size) (j := 3) (by omega)
  simp only [neededFor, headerSize, hpad, Option.bind_eq_bind, Option.bind_some,
    Word.add_of_lt (show max align 8 + size < 2 ^ 64 by omega)]
  exact congrArg (Option.bind · _) hround

/-- Where no class is chosen `malloc` returns null. -/
theorem malloc_of_chooseClass_eq_none (h : ∀ f k b, s.freeLists f k = some b → 8 ∣ b)
    (hneed : neededFor size (max align 8) = some needed) (hmap : mapping needed = some (fli, sl))
    (hcls : s.chooseClass fli sl needed = none) : s.malloc size align = some (0, s) := by
  simp only [malloc, show headerSize = 8 from rfl, hneed, hmap, min_fst_of_mapping hmap, findBlock,
    peeked_aligned h, hcls, Option.bind_eq_bind, Option.bind_some]

/-- A request that is answered has a size class. -/
theorem exists_mapping_of_malloc {r : ℕ × TlsfAllocator}
    (hneed : neededFor size (max align 8) = some needed) (hr : s.malloc size align = some r) :
    ∃ f k, mapping needed = some (f, k) := by
  simp only [malloc, show headerSize = 8 from rfl, hneed, Option.bind_eq_bind, Option.bind_some,
    Option.bind_eq_some_iff] at hr
  obtain ⟨⟨f, k⟩, hmap, -⟩ := hr
  exact ⟨f, k, hmap⟩

/-- **`malloc` returns when the request has a size class**, and only then. -/
theorem exists_malloc_iff (h : AtRest H s bs L) (hal : align.isPowerOfTwo)
    (hsize : max align 8 + size + 8 < 2 ^ 64) (htop : H + total bs + 8 < 2 ^ 64) :
    (∃ r, s.malloc size align = some r) ↔ ∃ f k, mapping (neededSize size align) = some (f, k) := by
  have hneed := neededFor_eq hsize
  constructor
  · exact fun hr => hr.elim fun r hr => exists_mapping_of_malloc hneed hr
  · rintro ⟨fli, sl, hmap⟩
    cases hcls : s.chooseClass fli sl (neededSize size align) with
    | none => exact ⟨_, malloc_of_chooseClass_eq_none h.hole.index.aligned hneed hmap hcls⟩
    | some c =>
      have h64 : neededSize size align < 2 ^ 64 := by
        rw [neededSize]
        omega
      obtain ⟨-, -, a, n, ha, hplace, -, hle⟩ := chooseClass_spec h.hole h64 hmap hcls
      have hc : s.chosenBlock size align = some a := by
        simp only [chosenBlock, show headerSize = 8 from rfl, hneed, hmap, min_fst_of_mapping hmap,
          hcls, Option.bind_eq_bind, Option.bind_some, ha]
      -- the aligned pointer is inside the block, or right behind it
      have hend := (place_bounds hplace).2.2
      rw [neededSize] at hle
      dsimp only at hend
      obtain ⟨j, hj⟩ : (max align 8).isPowerOfTwo := by
        rcases max_choice align 8 with hm | hm <;> rw [hm]
        · exact hal
        · exact ⟨3, rfl⟩
      obtain ⟨s', -, -, hr, -⟩ := malloc_of_chosen h hc (hj ▸ alignUp_two_pow (by omega))
      exact ⟨_, hr⟩

/-- **`malloc` returns**: within these bounds nothing overflows. -/
theorem exists_malloc (h : AtRest H s bs L) (hal : align.isPowerOfTwo)
    (hsize : size + max align 8 ≤ 2 ^ 58 + 8) (hH : H + total bs ≤ 2 ^ 63) :
    ∃ r, s.malloc size align = some r :=
  (exists_malloc_iff h hal (by omega) (by omega)).mpr
    (mapping_isSome (by rw [neededSize]; omega) (by rw [neededSize]; omega))

end Tlsf

end YontiOs
