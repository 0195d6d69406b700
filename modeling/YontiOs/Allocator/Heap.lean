import YontiOs.Allocator.Hole

/-!
# Allocator/Heap — what `init`, `free` and `malloc` do to a heap at rest

`AtRest H s bs L`: the heap from `H` is tiled by the blocks `bs`, no two neighbours free, and its
free lists `L` hold the free ones.  Every operation takes a heap at rest to a heap at rest, and its
effect is an edit of `bs`: `init` starts with one free block, `free` merges (`release`), `malloc`
carves (`carve`).  The lemmas are in the order of the code: headers, release, choice, allocation.
-/

namespace YontiOs.Tlsf

open TlsfAllocator

variable {m m' : Mem} {L : ℕ × ℕ → List ℕ} {s s' : TlsfAllocator} {H n r sz a x f k : ℕ}
  {p q b : Block} {bs X Z : List Block}

/-- No two neighbours are both free. -/
abbrev Coalesced (bs : List Block) : Prop :=
  bs.IsChain fun x y => ¬ (x.free = true ∧ y.free = true)

/-- **A heap at rest**: its blocks, coalesced, tagged and listed. -/
structure AtRest (H : ℕ) (s : TlsfAllocator) (bs : List Block) (L : ℕ × ℕ → List ℕ) : Prop where
  hole : Hole H s [] 0 sentinel bs L
  coalesced : Coalesced bs

/-! ## Headers around a hole -/

/-- The lists hold the free blocks. -/
theorem AtRest.mem_list_iff {f k : ℕ} (h : AtRest H s bs L) :
    a ∈ L (f, k) ↔ ∃ n, (a, ⟨n, true⟩) ∈ place H bs ∧ mapping n = some (f, k) := by
  rw [h.hole.lists]
  simp

@[simp] theorem header_setHeader_self {v : BlockHeader} : header (s.setHeader a v).mem a = v :=
  header_putHeader_self

/-- The header of the block in the hole, as a free one of `sz` bytes. -/
def Owned (H : ℕ) (s : TlsfAllocator) (X : List Block) (sz : ℕ) : Prop :=
  header s.mem (H + total X)
    = tagged (X.getLastD sentinel).size sz true (X.getLastD sentinel).free

theorem Hole.header_next (h : Hole H s X sz q Z L) : header s.mem (H + total X + sz)
    = tagged q.size (Z.headD sentinel).size (Z.headD sentinel).free q.free := by
  have hback := h.back
  cases Z <;> exact hback.1

theorem Hole.next_mod (h : Hole H s X sz q Z L) : (Z.headD sentinel).size % 4 = 0 := by
  cases Z with
  | nil => rfl
  | cons t Z =>
    have := (sized_cons.mp h.backSized).1.1
    simp only [List.headD_cons]
    omega

/-- The back size and flag the code writes into the header behind a free block. -/
theorem retag {ps : ℕ} {fr pf : Bool} (h4 : n % 4 = 0) :
    ({ tagged ps n fr pf with prevPhysSize := BitVec.ofNat 32 sz }).markPrevFree true
      = tagged sz n fr true :=
  markPrevFree_tagged h4

/-- A header store in the hole. -/
theorem Hole.setHeader_own (h : Hole H s X sz q Z L) (h8 : 8 ≤ sz) (v : BlockHeader) :
    Hole H (s.setHeader (H + total X) v) X sz q Z L ∧
      ∀ x, Kept H X sz Z x → (s.setHeader (H + total X) v).mem x = s.mem x := by
  refine h.rewrite (fun x hx => putHeader_of_notMem (by omega)) ?_
  rw [header_putHeader_of_disjoint (by omega), h.header_next]

/-- **The header behind the hole, told about a free block of `sz` bytes.** -/
theorem Hole.setHeader_next (h : Hole H s X sz q Z L) :
    let s' := s.setHeader (H + total X + sz) (({ header s.mem (H + total X + sz) with
      prevPhysSize := BitVec.ofNat 32 sz }).markPrevFree true)
    Hole H s' X sz ⟨sz, true⟩ Z L ∧ (∀ x, Kept H X sz Z x → s'.mem x = s.mem x) ∧
      ∀ y, y + 8 ≤ H + total X + sz → header s'.mem y = header s.mem y := by
  intro s'
  obtain ⟨hs, hk⟩ := h.rewrite (p := ⟨sz, true⟩)
    (fun x hx => show s'.mem x = s.mem x from putHeader_of_notMem (by omega))
    (header_putHeader_self.trans (by rw [h.header_next]; exact retag h.next_mod))
  exact ⟨hs, hk, fun y hy => header_putHeader_of_disjoint (by omega)⟩

/-! ## Initialisation -/

/-- The lists of a heap that has none. -/
theorem index_empty {s : TlsfAllocator} (hfl : s.flBitmap = 0) (hsl : s.slBitmaps = fun _ => 0)
    (hls : s.freeLists = fun _ _ => none) : Index s fun _ => [] where
  threads :=
    { table := Table.empty
      valid := fun ⟨_, h⟩ => nomatch h
      aligned := fun ⟨_, h⟩ => nomatch h
      apart := fun ⟨_, h⟩ => nomatch h }
  roots :=
    { head := fun _ _ => by rw [hls]; rfl
      slBit := fun _ _ => by simp [hsl]
      flBit := fun _ => by simp [hsl, hfl]
      range := fun _ _ h => absurd rfl h }

/-- The state `init` hands to `insert`: the two headers of a region of one block. -/
def region (mem : Mem) (H n : ℕ) : TlsfAllocator :=
  ⟨H, H + n, 0, fun _ => 0, fun _ _ => none,
    putHeader (putHeader mem H (tagged 0 n true false)) (H + n) (tagged n 0 false true)⟩

theorem init_eq (mem : Mem) (h0 : H ≠ 0) (hsmall : n < 2 ^ 32) (hfits : H + n < 2 ^ 64)
    (h8 : 8 ∣ H) (h4 : 4 ∣ n) :
    (new mem).init H n = (region mem H n).insert H n := by
  have hfirst : ({ header mem H with prevPhysSize := 0 }).set n true false
      = some (tagged 0 n true false) := set_eq_tagged rfl hsmall
  have hlast : ∀ m, ({ header m (H + n) with prevPhysSize := BitVec.ofNat 32 n }).set 0 false true
      = some (tagged n 0 false true) := fun m => set_eq_tagged rfl (by decide)
  have hend : derefHeader (H + n) = some () := deref_of_dvd (by omega)
  simp only [TlsfAllocator.init, Word.add_of_lt hfits, Option.bind_eq_bind, Option.bind_some, new,
    derefHeader_of_dvd h8, hfirst, setHeader, hend, hlast, nonNull, if_neg h0]
  rfl

/-- An `init` that returns was given a region that its header field and the address space hold, at
a multiple of 8 and of a multiple of 4 bytes. -/
theorem init_eq_some {mem : Mem} (h : (new mem).init H n = some s) :
    H ≠ 0 ∧ n < 2 ^ 32 ∧ H + n < 2 ^ 64 ∧ 8 ∣ H ∧ 4 ∣ n := by
  simp only [TlsfAllocator.init, Option.bind_eq_bind, Option.bind_eq_some_iff] at h
  obtain ⟨heapEnd, hend, _, -, first, hfirst, _, hlast, last, -, block, hblock, hins⟩ := h
  obtain ⟨rfl, hfits⟩ := Word.add_eq_some hend
  have h8 : 8 ∣ H := by
    rw [nonNull] at hblock
    split_ifs at hblock
    obtain rfl := Option.some.inj hblock
    simp only [TlsfAllocator.insert, Option.bind_eq_bind, Option.bind_eq_some_iff] at hins
    obtain ⟨_, -, _, hnode, -⟩ := hins
    exact (Nat.dvd_add_left (dvd_refl 8)).mp (deref_eq_some.mp hnode)
  have h4 : 4 ∣ H + n := deref_eq_some.mp hlast
  refine ⟨?_, ?_, hfits, h8, by omega⟩
  · rintro rfl
    simp [nonNull] at hblock
  · by_contra hno
    rw [BlockHeader.set, if_neg (by omega)] at hfirst
    cases hfirst

theorem header_region (mem : Mem) (h8 : 8 ≤ n) :
    header (region mem H n).mem H = tagged 0 n true false := by
  rw [region, header_putHeader_of_disjoint (by omega), header_putHeader_self]

/-- **`init` makes one free block of the region.** -/
theorem init_spec (mem : Mem) (h0 : 0 < H) (h8 : H % 8 = 0) (hn : n % 8 = 0) (h32 : 32 ≤ n)
    (hsmall : n < 2 ^ 32) (hfits : H + n < 2 ^ 64) :
    ∃ s L, (new mem).init H n = some s ∧ AtRest H s [⟨n, true⟩] L := by
  have hole : Hole H (region mem H n) [] n ⟨n, true⟩ [] fun _ => [] := by
    refine ⟨⟨rfl, by simp [region], h0, h8, by simpa using hfits, by simpa using hsmall⟩, sized_nil,
      hn, sized_nil, tagged_nil, ⟨?_, trivial⟩, index_empty rfl rfl rfl, fun f k a => by simp⟩
    simp only [total_nil, add_zero, region, header_putHeader_self]
    rfl
  obtain ⟨s, L, hins, hs, -⟩ := hole.fillFree h32 (header_region mem (by omega))
  exact ⟨s, L, (init_eq mem h0.ne' hsmall hfits (by omega) (by omega)).trans hins,
    Hole.slide.mp hs, List.isChain_singleton _⟩

/-! ## Release -/

/-- The hole's size, and what is left behind it, after forward coalescing. -/
def mergeNext (sz : ℕ) : List Block → ℕ × List Block
  | ⟨n, true⟩ :: Z => (sz + n, Z)
  | Z => (sz, Z)

/-- What is left before the hole, and its size, after backward coalescing. -/
def mergePrev (X : List Block) (sz : ℕ) : List Block × ℕ :=
  match X.getLast? with
  | some ⟨n, true⟩ => (X.dropLast, n + sz)
  | _ => (X, sz)

/-- **The blocks after a release**: the freed block, merged with its free neighbours. -/
def release (X : List Block) (sz : ℕ) (Z : List Block) : List Block :=
  (mergePrev X (mergeNext sz Z).1).1 ++
    ⟨(mergePrev X (mergeNext sz Z).1).2, true⟩ :: (mergeNext sz Z).2

theorem kept_mergeNext : Kept H X sz Z x ↔ Kept H X (mergeNext sz Z).1 (mergeNext sz Z).2 x :=
  match Z with
  | [] => Iff.rfl
  | ⟨_, false⟩ :: _ => Iff.rfl
  | ⟨_, true⟩ :: _ => kept_cons_free

theorem le_mergeNext : sz ≤ (mergeNext sz Z).1 :=
  match Z with
  | [] => le_rfl
  | ⟨_, false⟩ :: _ => le_rfl
  | ⟨_, true⟩ :: _ => Nat.le_add_right _ _

/-- The test of forward coalescing reads the tag of the block behind the hole; behind the last block
it reads nothing. -/
theorem nextIsFree_eq (h : Hole H s X sz q Z L) :
    s.nextIsFree (H + total X + sz) = some (Z.headD sentinel).free := by
  have hfree : (header s.mem (H + total X + sz)).isFree = (Z.headD sentinel).free := by
    rw [h.header_next]
    exact isFree_tagged h.next_mod
  have hstop := h.region.stop
  rw [nextIsFree]
  split_ifs with hlt
  · rw [derefHeader_of_dvd h.dvd_next, Option.bind_eq_bind, Option.bind_some, hfree]
  · rcases Z with _ | ⟨b, Z⟩
    · rfl
    · have hb := (sized_cons.mp h.backSized).1.2
      rw [total_cons] at hstop
      omega

/-- Nothing is merged with a block in use. -/
theorem coalesceForward_of_not_free (h : Hole H s X sz q Z L)
    (hfree : (Z.headD sentinel).free = false) :
    s.coalesceForward (H + total X) sz = some (sz, s) := by
  have hfits := h.region.fits
  have hsmall := h.region.small
  rw [coalesceForward, Word.add_of_lt (by omega), Option.bind_eq_bind, Option.bind_some,
    nextIsFree_eq h, hfree]
  rfl

/-- **Forward coalescing** swallows a free block. -/
theorem coalesceForward_of_free (h : Hole H s X sz q (⟨n, true⟩ :: Z) L)
    (hown : Owned H s X sz) (h32 : 32 ≤ sz) :
    ∃ s' L' q', s.coalesceForward (H + total X) sz = some (sz + n, s') ∧
      Hole H s' X (sz + n) q' Z L' ∧ Owned H s' X (sz + n) ∧
      ∀ x, Kept H X (sz + n) Z x → s'.mem x = s.mem x := by
  have hreg := h.region
  rw [total_cons] at hreg
  have hfits := hreg.fits
  have hsmall := hreg.small
  have hpos := hreg.pos
  have hn32 := (sized_cons.mp h.backSized).1.2
  dsimp only at hfits hsmall hn32
  obtain ⟨s₁, L', hrem, hole₁, hk₁, hin⟩ := h.absorbNext
  have hsize : (header s₁.mem (H + total X + sz)).size = n := by
    rw [header_congr fun x h1 h2 => hin x (by omega) (by omega), h.header_next]
    have := h.next_mod
    simp only [List.headD_cons] at this ⊢
    exact size_tagged this (by omega)
  have hown₁ : Owned H s₁ X sz :=
    (header_congr fun x h1 h2 => hin x (by omega) (by omega)).trans hown
  have h4 : sz % 4 = 0 := by
    have := h.aligned
    omega
  set v := tagged (X.getLastD sentinel).size (sz + n) true (X.getLastD sentinel).free
  have hset : (header s₁.mem (H + total X)).set (sz + n) true
      (header s₁.mem (H + total X)).prevIsFree = some v := by
    rw [hown₁, prevIsFree_tagged h4]
    exact set_eq_tagged rfl (by omega)
  obtain ⟨hole₂, hk₂⟩ := hole₁.setHeader_own (by omega) v
  refine ⟨s₁.setHeader (H + total X) v, L', _, ?_, hole₂, header_putHeader_self,
    fun x hx => (hk₂ x hx).trans (hk₁ x hx)⟩
  have hcond : s.nextIsFree (H + total X + sz) = some true := nextIsFree_eq h
  simp only [coalesceForward, Word.add_of_lt (show H + total X + sz < 2 ^ 64 by omega),
    Option.bind_eq_bind, Option.bind_some, hcond, if_true, nonNull,
    if_neg (show H + total X + sz ≠ 0 by omega), hrem, hsize, hset,
    Word.add_of_lt (show sz + n < 2 ^ 64 by omega)]

theorem coalesceForward_spec (h : Hole H s X sz q Z L) (hown : Owned H s X sz) (h32 : 32 ≤ sz) :
    ∃ s' L' q', s.coalesceForward (H + total X) sz = some ((mergeNext sz Z).1, s') ∧
      Hole H s' X (mergeNext sz Z).1 q' (mergeNext sz Z).2 L' ∧ Owned H s' X (mergeNext sz Z).1 ∧
      ∀ x, Kept H X sz Z x → s'.mem x = s.mem x :=
  match Z, h with
  | [], h => ⟨s, L, q, coalesceForward_of_not_free h rfl, h, hown, fun _ _ => rfl⟩
  | ⟨_, false⟩ :: _, h => ⟨s, L, q, coalesceForward_of_not_free h rfl, h, hown, fun _ _ => rfl⟩
  | ⟨_, true⟩ :: _, h => by
    obtain ⟨s', L', q', heq, hole, hown', hkept⟩ := coalesceForward_of_free h hown h32
    exact ⟨s', L', q', heq, hole, hown', fun x hx => hkept x (kept_cons_free.mp hx)⟩

theorem mergePrev_concat_free : mergePrev (X ++ [⟨n, true⟩]) sz = (X, n + sz) := by
  simp [mergePrev]

theorem mergePrev_of_not_free (h : (X.getLastD sentinel).free = false) :
    mergePrev X sz = (X, sz) := by
  rcases X.eq_nil_or_concat with rfl | ⟨X, ⟨n, fr⟩, rfl⟩
  · rfl
  · simp only [List.concat_eq_append, List.getLastD_concat] at h
    subst h
    simp [mergePrev]

theorem kept_mergePrev : Kept H X sz Z x ↔ Kept H (mergePrev X sz).1 (mergePrev X sz).2 Z x := by
  cases hfree : (X.getLastD sentinel).free with
  | false => rw [mergePrev_of_not_free hfree]
  | true =>
    rcases X.eq_nil_or_concat with rfl | ⟨X, ⟨n, fr⟩, rfl⟩
    · cases hfree
    rw [List.concat_eq_append, List.getLastD_concat] at hfree
    subst hfree
    rw [List.concat_eq_append, mergePrev_concat_free, kept_concat_free]

/-- The tag of a block in use tells whether the one before is free. -/
theorem Owned.prevIsFree_eq (hown : Owned H s X sz) (h : Hole H s X sz q Z L) :
    (header s.mem (H + total X)).prevIsFree = (X.getLastD sentinel).free := by
  have h4 : sz % 4 = 0 := by
    have := h.aligned
    omega
  rw [hown, prevIsFree_tagged h4]

/-- **Backward coalescing** has a free block grow over the hole. -/
theorem coalesceBackward_of_free (h : Hole H s (X ++ [⟨n, true⟩]) sz q Z L)
    (hown : Owned H s (X ++ [⟨n, true⟩]) sz) (h32 : 32 ≤ sz) :
    ∃ s' L', s.coalesceBackward (H + total (X ++ [⟨n, true⟩])) sz
        = some (H + total X, n + sz, s') ∧
      Hole H s' X (n + sz) q Z L' ∧ Owned H s' X (n + sz) ∧
      ∀ x, Kept H X (n + sz) Z x → s'.mem x = s.mem x := by
  have hprev := hown.prevIsFree_eq h
  have hreg := h.region
  have htot : total (X ++ [⟨n, true⟩]) = total X + n := by simp
  rw [htot] at hreg
  have hfits := hreg.fits
  have hsmall := hreg.small
  have hpos := hreg.pos
  obtain ⟨s₁, L', hrem, hole₁, hk₁, hin⟩ := h.absorbPrev
  have hn4 : n % 4 = 0 := by
    have := (h.frontSized ⟨n, true⟩ (by simp)).1
    dsimp only at this
    omega
  have hhead : header s₁.mem (H + total X)
      = tagged (X.getLastD sentinel).size n true (X.getLastD sentinel).free := by
    rw [header_congr fun x h1 h2 => hin x h1 h2]
    exact h.front.header_middle
  set v := tagged (X.getLastD sentinel).size (sz + n) true (X.getLastD sentinel).free with hv
  have hset : (header s₁.mem (H + total X)).set (sz + n) true
      (header s₁.mem (H + total X)).prevIsFree = some v := by
    rw [hhead, prevIsFree_tagged hn4]
    exact set_eq_tagged rfl (by omega)
  obtain ⟨hole₂, hk₂⟩ := hole₁.setHeader_own (by omega) v
  have hbackSize : (header s.mem (H + total (X ++ [⟨n, true⟩]))).prevPhysSize.toNat = n := by
    rw [hown, prevPhysSize_tagged] <;> rw [List.getLastD_concat]
    dsimp only
    omega
  have hsub : Word.sub (H + total (X ++ [⟨n, true⟩])) n = some (H + total X) := by
    rw [Word.sub_of_le (by omega), htot]
    congr 1
    omega
  refine ⟨s₁.setHeader (H + total X) v, L', ?_, hole₂, ?_,
    fun x hx => (hk₂ x hx).trans (hk₁ x hx)⟩
  · rw [List.getLastD_concat] at hprev
    simp only [coalesceBackward, hprev, if_true, hbackSize, hsub, Option.bind_eq_bind,
      Option.bind_some, nonNull, if_neg (show H + total X ≠ 0 by omega), hrem, hset,
      Word.add_of_lt (show sz + n < 2 ^ 64 by omega), add_comm n sz]
  · rw [Owned, add_comm n sz]
    exact header_putHeader_self

theorem coalesceBackward_spec (h : Hole H s X sz q Z L) (hown : Owned H s X sz) (h32 : 32 ≤ sz) :
    ∃ s' L', s.coalesceBackward (H + total X) sz
        = some (H + total (mergePrev X sz).1, (mergePrev X sz).2, s') ∧
      Hole H s' (mergePrev X sz).1 (mergePrev X sz).2 q Z L' ∧
      Owned H s' (mergePrev X sz).1 (mergePrev X sz).2 ∧ 32 ≤ (mergePrev X sz).2 ∧
      ∀ x, Kept H X sz Z x → s'.mem x = s.mem x := by
  cases hfree : (X.getLastD sentinel).free with
  | false =>
    rw [mergePrev_of_not_free hfree]
    refine ⟨s, L, ?_, h, hown, h32, fun _ _ => rfl⟩
    simp only [coalesceBackward, hown.prevIsFree_eq h, hfree, Bool.false_eq_true, if_false]
  | true =>
    rcases X.eq_nil_or_concat with rfl | ⟨X, ⟨n, fr⟩, rfl⟩
    · cases hfree
    rw [List.concat_eq_append] at h hown hfree ⊢
    rw [List.getLastD_concat] at hfree
    subst hfree
    rw [mergePrev_concat_free]
    obtain ⟨s', L', heq, hole, hown', hkept⟩ := coalesceBackward_of_free h hown h32
    exact ⟨s', L', heq, hole, hown', by omega, fun x hx => hkept x (kept_concat_free.mp hx)⟩

/-- Releasing a block leaves no two neighbours free. -/
theorem coalesced_release (h : Coalesced (X ++ ⟨sz, false⟩ :: Z)) :
    Coalesced (release X sz Z) := by
  obtain ⟨hX, hZ, -⟩ := List.isChain_append.mp h
  -- forwards: what stays behind the hole does not begin with a free block
  have hback : ∀ n, Coalesced (⟨n, true⟩ :: (mergeNext sz Z).2) := by
    intro n
    have hZ' := hZ.tail
    match Z, hZ' with
    | [], _ => exact List.isChain_singleton _
    | ⟨c, false⟩ :: Z, hZ' => exact List.isChain_cons_cons.mpr ⟨by simp, hZ'⟩
    | [⟨c, true⟩], _ => exact List.isChain_singleton _
    | ⟨c, true⟩ :: d :: Z, hZ' =>
      obtain ⟨hcd, hd⟩ := List.isChain_cons_cons.mp hZ'
      exact List.isChain_cons_cons.mpr ⟨by simpa using hcd, hd⟩
  generalize hs : (mergeNext sz Z).1 = sz' at *
  rw [release, hs]
  -- backwards: what stays before the hole does not end with one
  cases hfree : (X.getLastD sentinel).free with
  | false =>
    rw [mergePrev_of_not_free hfree]
    refine List.isChain_append.mpr ⟨hX, hback sz', fun x hx y _ => ?_⟩
    rw [List.getLastD_eq_getLast?, Option.mem_def.mp hx] at hfree
    simp_all
  | true =>
    rcases X.eq_nil_or_concat with rfl | ⟨X, ⟨n, fr⟩, rfl⟩
    · cases hfree
    rw [List.concat_eq_append] at *
    rw [List.getLastD_concat] at hfree
    subst hfree
    rw [mergePrev_concat_free]
    obtain ⟨hX', -, hlast⟩ := List.isChain_append.mp hX
    refine List.isChain_append.mpr ⟨hX', hback _, fun x hx y hy => ?_⟩
    have := hlast x hx _ rfl
    simp_all

/-- **`free` of an allocated block** merges it with its free neighbours and lists the result; the
payloads of the other blocks are kept. -/
theorem free_spec (h : AtRest H s (X ++ ⟨sz, false⟩ :: Z) L) :
    ∃ s' L', s.free (H + total X + 8) = some s' ∧ AtRest H s' (release X sz Z) L' ∧
      ∀ x, Kept H X sz Z x → s'.mem x = s.mem x := by
  have hole₀ := Hole.slide.mpr h.hole
  have hreg := hole₀.region
  rw [total_cons, add_zero] at hreg
  obtain ⟨hmod, h32⟩ := (sized_cons.mp hole₀.backSized).1
  dsimp only at hreg hmod h32
  have hfits := hreg.fits
  have hsmall := hreg.small
  have hpos := hreg.pos
  have hhead : header s.mem (H + total X)
      = tagged (X.getLastD sentinel).size sz false (X.getLastD sentinel).free := hole₀.header_next
  have hole₁ := hole₀.forgetNext
  rw [zero_add] at hole₁
  obtain ⟨hole₂, hk₂⟩ := hole₁.setHeader_own (by omega)
    ((header s.mem (H + total X)).markFree true)
  have hown₂ : Owned H (s.setHeader (H + total X) ((header s.mem (H + total X)).markFree true))
      X sz := by
    refine header_putHeader_self.trans ?_
    rw [hhead]
    exact markFree_tagged (by omega)
  obtain ⟨s₃, L₃, q₃, hfwd, hole₃, hown₃, hk₃⟩ := coalesceForward_spec hole₂ hown₂ h32
  obtain ⟨s₄, L₄, hbwd, hole₄, hown₄, h32₄, hk₄⟩ :=
    coalesceBackward_spec hole₃ hown₃ (h32.trans le_mergeNext)
  have hkeep : ∀ x, Kept H X sz Z x → Kept H (mergePrev X (mergeNext sz Z).1).1
      (mergePrev X (mergeNext sz Z).1).2 (mergeNext sz Z).2 x := fun x hx =>
    kept_mergePrev.mp (kept_mergeNext.mp hx)
  have hchain := coalesced_release h.coalesced
  rw [release] at hchain ⊢
  generalize (mergePrev X (mergeNext sz Z).1).1 = X' at *
  generalize (mergePrev X (mergeNext sz Z).1).2 = sz' at *
  have hreg₄ := hole₄.region
  have hfits₄ := hreg₄.fits
  obtain ⟨hole₅, hk₅, hh₅⟩ := hole₄.setHeader_next
  obtain ⟨s₆, L₆, hins, hole₆, hk₆⟩ :=
    hole₅.fillFree h32₄ ((hh₅ _ (by omega)).trans hown₄)
  refine ⟨s₆, L₆, ?_, ⟨?_, hchain⟩, fun x hx => ?_⟩
  · have hsub : Word.sub (H + total X + 8) headerSize = some (H + total X) := Word.sub_of_le (by
      simp only [headerSize]; omega)
    have hsize : (header s.mem (H + total X)).size = sz := by
      rw [hhead, size_tagged (by omega) (by omega)]
    simp only [TlsfAllocator.free, if_neg (show H + total X + 8 ≠ 0 by omega), hsub,
      derefHeader_of_dvd hole₀.dvd, hsize, hfwd, hbwd, derefHeader_of_dvd hole₄.dvd_next,
      Option.bind_eq_bind, Option.bind_some, nonNull,
      Word.add_of_lt (show H + total X' + sz' < 2 ^ 64 by omega),
      if_neg (show H + total X' ≠ 0 by omega)]
    exact hins
  · have := Hole.slide (X := X' ++ [⟨sz', true⟩]).mp (by rwa [List.getLastD_concat])
    rwa [List.append_assoc] at this
  · rw [hk₆ x (hkeep x hx), hk₅ x (hkeep x hx), hk₄ x (kept_mergeNext.mp hx), hk₃ x hx, hk₂ x hx]

end YontiOs.Tlsf
