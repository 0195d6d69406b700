import YontiOs.Allocator.RoundTrip

/-!
# Allocator/Requests — what a request gets

`find_block` looks at the heads of lists only: it passes over a block of the request's own class
that is large enough but not at the head, and takes any block of a higher class.
`malloc_refuses_iff` says exactly when it comes back with nothing, for heaps below 16 MiB, where no
class is capped.

Every request that `Layout` admits is answered, unless the product in `mapping` overflows
(`malloc_returns_iff`).
-/

namespace YontiOs.Tlsf

open TlsfAllocator

variable {H n a f k size align block needed : ℕ} {s : TlsfAllocator} {σ : Sys} {bs : List Block}
  {L : ℕ × ℕ → List ℕ} {heap : TlsfAllocator} {mem : Mem} {ops : List Op} {op : Op}

/-! ## The size check of `alloc_from` -/

/-- The pointer `alloc_from` returns, and `total_consumed`: what it takes off the front of the
block. -/
def consumed (block userSize align : ℕ) : Option (ℕ × ℕ) := do
  let userStart ← Word.add block headerSize
  let alignedStart ← alignUp userStart align
  let frontPadding ← Word.sub alignedStart userStart
  let total ← alignUp (← Word.add (← Word.add headerSize frontPadding) userSize) 8
  some (alignedStart, max total minBlockSize)

/-- **The block `find_block` returns passes the size check.** -/
theorem consumed_le_size {fli sl : ℕ} {s₁ : TlsfAllocator} {r : ℕ × ℕ} (h : AtRest H s bs L)
    (hneed : neededFor size (max align 8) = some needed) (hmap : mapping needed = some (fli, sl))
    (hfind : s.findBlock fli sl needed = some (some block, s₁))
    (hr : consumed block size (max align 8) = some r) : r.2 ≤ (header s₁.mem block).size := by
  obtain ⟨t', ht', rfl⟩ := neededFor_eq_some (le_max_right _ _) hneed
  obtain ⟨-, ht64', -, -, htlt'⟩ := alignUp_eq_some ht'
  cases hcls : s.chooseClass fli sl (max t' 32) with
  | none =>
    rw [findBlock, h.hole.index.peeked, hcls] at hfind
    cases (Prod.mk.inj (Option.some.inj hfind)).1
  | some c =>
    obtain ⟨X, n, Z, s₂, L₁, rfl, hle, -, hfind', hole, hown, -⟩ :=
      findBlock_spec h (by omega) hmap hcls
    obtain ⟨hb, rfl⟩ := Prod.mk.inj (Option.some.inj (hfind.symm.trans hfind'))
    obtain rfl := Option.some.inj hb
    have hsmall := hole.region.small
    have hmod : (H + total X) % 8 = 0 := Nat.mod_eq_zero_of_dvd hole.dvd
    have hn := hole.aligned
    rw [hown, size_tagged (by omega) (by omega)]
    simp only [consumed, Option.bind_eq_bind, Option.bind_eq_some_iff] at hr
    obtain ⟨start, hstart, ptr, hptr, pad, hpad, whole, hwhole, sum, hsum, t, ht, heq⟩ := hr
    obtain ⟨rfl, -⟩ := Word.add_eq_some hstart
    obtain ⟨rfl, hge⟩ := Word.sub_eq_some hpad
    obtain ⟨rfl, -⟩ := Word.add_eq_some hwhole
    obtain ⟨rfl, -⟩ := Word.add_eq_some hsum
    obtain ⟨u, hu, hut⟩ := consumed_le hmod hptr ht'
    simp only [headerSize, minBlockSize] at hge ht heq
    rw [show 8 + (ptr - (H + total X + 8)) = ptr - (H + total X) by omega, hu] at ht
    obtain rfl := Option.some.inj ht
    obtain rfl := (Option.some.inj heq).symm
    dsimp only
    omega

/-! ## Refusals -/

/-- In a heap at rest a bucket suits when its head is large enough. -/
theorem AtRest.suits_iff (h : AtRest H s bs L) : s.suits f needed k = true ↔
    ∃ b, s.freeLists f k = some b ∧ needed ≤ (header s.mem b).size := by
  rw [suits, Bool.and_eq_true, h.hole.index.roots.slBit, h.hole.index.roots.head]
  cases L (f, k) <;> simp

/-- The sizes of the free blocks. -/
theorem AtRest.free_size (h : AtRest H s bs L) (ha : (a, ⟨n, true⟩) ∈ place H bs) :
    32 ≤ n ∧ n ≤ total bs := by
  have hb := place_bounds ha
  have hge := (h.hole.backSized _ hb.1).2
  dsimp only at hb hge
  omega

/-- A list of a higher class has a head, and the head is larger than the request. -/
theorem AtRest.head_of_higher (h : AtRest H s bs L) (h24 : total bs < 2 ^ 24) (h32 : 32 ≤ needed)
    (hle : needed ≤ total bs) (hm : mapping needed = some (f, k)) {f' k' : ℕ}
    (hne : L (f', k') ≠ []) (hlt : toLex (f, k) < toLex (f', k')) :
    ∃ b n, s.freeLists f' k' = some b ∧ (b, ⟨n, true⟩) ∈ place H bs ∧
      mapping n = some (f', k') ∧ needed ≤ (header s.mem b).size := by
  obtain ⟨-, -, b, n, hb, hplace, hmap, hhead⟩ := h.hole.exists_head hne
  refine ⟨b, n, hb, hplace, hmap, ?_⟩
  obtain ⟨hmin, hmax⟩ := h.free_size hplace
  have hnext := (lt_mapping_iff hmin (by omega) (mapping_range hm).2 hmap).mp hlt
  have hclass := (mapping_bounds h32 (by omega) hm).2
  rw [hhead]
  exact hclass.le.trans hnext

/-- **When `find_block` finds nothing**, below 16 MiB: no free block is of a higher class, and the
head of the request's own class is too small. -/
theorem AtRest.chooseClass_eq_none_iff (h : AtRest H s bs L) (h24 : total bs < 2 ^ 24)
    (h32 : 32 ≤ needed) (hle : needed ≤ total bs) (hm : mapping needed = some (f, k)) :
    s.chooseClass f k needed = none ↔
      (∀ a n, (a, ⟨n, true⟩) ∈ place H bs → ∃ c, mapping n = some c ∧ toLex c ≤ toLex (f, k)) ∧
        ∀ b, s.freeLists f k = some b → (header s.mem b).size < needed := by
  rw [Tlsf.chooseClass_eq_none_iff]
  constructor
  · rintro ⟨hrow, hrows⟩
    refine ⟨fun a n ha => ?_, fun b hb => ?_⟩
    · obtain ⟨hmin, hmax⟩ := h.free_size ha
      obtain ⟨f', k', hmap⟩ := mapping_isSome (n := n) (by omega) (by omega)
      refine ⟨_, hmap, not_lt.mp fun hlt => ?_⟩
      have hne : L (f', k') ≠ [] := List.ne_nil_of_mem (h.mem_list_iff.mpr ⟨n, ha, hmap⟩)
      rcases Prod.Lex.toLex_lt_toLex.mp hlt with hff | ⟨rfl, hkk⟩
      · have hbit := (h.hole.index.roots.flBit_iff f').mpr ⟨k', hne⟩
        rw [hrows f' hff] at hbit
        cases hbit
      · obtain ⟨b, -, hb, -, -, hge⟩ := h.head_of_higher h24 h32 hle hm hne hlt
        have hsuit := h.suits_iff.mpr ⟨b, hb, hge⟩
        rw [hrow k' hkk.le] at hsuit
        cases hsuit
    · by_contra hno
      have hsuit := h.suits_iff.mpr ⟨b, hb, not_lt.mp hno⟩
      rw [hrow k le_rfl] at hsuit
      cases hsuit
  · rintro ⟨hclasses, hhead⟩
    have hempty : ∀ f' k', toLex (f, k) < toLex (f', k') → L (f', k') = [] := by
      intro f' k' hlt
      by_contra hne
      obtain ⟨b, n, -, hplace, hmap, -⟩ := h.head_of_higher h24 h32 hle hm hne hlt
      obtain ⟨c, hc, hcle⟩ := hclasses b n hplace
      obtain rfl := Option.some.inj (hmap.symm.trans hc)
      exact absurd hlt (not_lt.mpr hcle)
    refine ⟨fun k' hk' => ?_, fun f' hf' => ?_⟩
    · by_contra hsuit
      obtain ⟨b, hb, hge⟩ := h.suits_iff.mp (by simpa using hsuit)
      rcases hk'.eq_or_lt with rfl | hlt
      · exact absurd hge (not_le.mpr (hhead b hb))
      · rw [h.hole.index.roots.head,
          hempty f k' (Prod.Lex.toLex_lt_toLex.mpr (.inr ⟨rfl, hlt⟩))] at hb
        cases hb
    · by_contra hbit
      obtain ⟨k', hne⟩ := (h.hole.index.roots.flBit_iff f').mp (by simpa using hbit)
      exact hne (hempty f' k' (Prod.Lex.toLex_lt_toLex.mpr (.inl hf')))

/-- **`malloc` returns null when `find_block` finds nothing**, and only then. -/
theorem AtRest.malloc_eq_null_iff (h : AtRest H s bs L)
    (hneed : neededFor size (max align 8) = some needed) (hm : mapping needed = some (f, k)) :
    (∃ s', s.malloc size align = some (0, s')) ↔ s.chooseClass f k needed = none := by
  refine ⟨?_, fun hcls => ⟨s, malloc_of_chooseClass_eq_none h.hole.index.aligned hneed hm hcls⟩⟩
  rintro ⟨s', hr⟩
  rcases malloc_cases h hr with ⟨hc, -, -⟩ | ⟨a, bs', L', -, -, hcarve, -⟩
  · obtain ⟨t, ht, rfl⟩ := neededFor_eq_some (le_max_right _ _) hneed
    obtain ⟨-, h64, -, -, hlt⟩ := alignUp_eq_some ht
    by_contra hno
    obtain ⟨⟨f', k'⟩, hcls⟩ := Option.ne_none_iff_exists'.mp hno
    obtain ⟨-, -, b, -, hb, -⟩ := chooseClass_spec h.hole (by omega) hm hcls
    simp only [chosenBlock, show headerSize = 8 from rfl, hneed, hm, min_fst_of_mapping hm, hcls,
      Option.bind_eq_bind, Option.bind_some, hb] at hc
    cases hc
  · have := hcarve.ptr_ge
    omega

/-- A request larger than the heap finds nothing. -/
theorem AtRest.chooseClass_of_lt (h : AtRest H s bs L) (h64 : needed < 2 ^ 64)
    (hm : mapping needed = some (f, k)) (hlt : total bs < needed) :
    s.chooseClass f k needed = none := by
  by_contra hno
  obtain ⟨⟨f', k'⟩, hcls⟩ := Option.ne_none_iff_exists'.mp hno
  obtain ⟨-, -, b, n, -, hplace, -, hle⟩ := chooseClass_spec h.hole h64 hm hcls
  have hb := (place_bounds hplace).2
  dsimp only at hb
  omega

/-- The free blocks met by walking the heap are those of the layout. -/
theorem AtRest.forall_free_iff (h : AtRest H s bs L) {P : ℕ → Prop} :
    (∀ b ∈ (place H bs).map Prod.fst, (header s.mem b).isFree = true → P (header s.mem b).size) ↔
      ∀ a n, (a, ⟨n, true⟩) ∈ place H bs → P n := by
  constructor
  · intro hP a n ha
    have := hP a (List.mem_map.mpr ⟨_, ha, rfl⟩) (h.header_place ha).2
    rwa [(h.header_place ha).1] at this
  · intro hP b hb hfree
    obtain ⟨⟨x, ⟨m, fr⟩⟩, hx, rfl⟩ := List.mem_map.mp hb
    obtain rfl : fr = true := (h.header_place hx).2.symm.trans hfree
    rw [(h.header_place hx).1]
    exact hP x m hx

/-- **A free block from the next class on is enough.** -/
theorem AtRest.chooseClass_ne_none (h : AtRest H s bs L) (h24 : total bs < 2 ^ 24)
    (h32 : 32 ≤ needed) (hle : needed ≤ total bs) (hm : mapping needed = some (f, k))
    (ha : (a, ⟨n, true⟩) ∈ place H bs) (hstart : classStart f (k + 1) ≤ n) :
    s.chooseClass f k needed ≠ none := by
  intro hnone
  obtain ⟨c, hc, hcle⟩ := ((h.chooseClass_eq_none_iff h24 h32 hle hm).mp hnone).1 a n ha
  obtain ⟨hmin, hmax⟩ := h.free_size ha
  have hlt := (lt_mapping_iff (c := (f, k)) hmin (by omega) (mapping_range hm).2 hc).mpr hstart
  exact absurd hcle (not_le.mpr hlt)

/-! ## Runs -/

theorem le_neededSize : 32 ≤ neededSize size align := le_max_right _ _

theorem neededSize_lt (h : max align 8 + size + 8 < 2 ^ 64) :
    neededSize size align < 2 ^ 64 := by
  rw [neededSize]
  omega

/-- **Refusals are exact**, in every state of a heap below 16 MiB.  A request for more than the heap
gets null.  Any other gets null exactly if no free block is of a higher class and the head of the
list of its own class is missing or too small; a free block from the next class on is enough.  The
size check of `alloc_from` never fails, null changes nothing, and while the heap and its sentinel
end below the last address every request returns. -/
theorem malloc_refuses_iff (mem : Mem) (h8 : H % 8 = 0) (hn : n % 8 = 0) (hsmall : n < 2 ^ 24)
    (hinit : (new mem).init H n = some heap)
    (hrun : Run Sys.exec Sys.SmallFrees ⟨heap, []⟩ ops σ) (hal : align.isPowerOfTwo)
    (hsize : size + align ≤ 2 ^ 58) :
    ∃ l f k, Walk σ.heap.mem σ.heap.heapStart l σ.heap.heapEnd ∧
      mapping (neededSize size align) = some (f, k) ∧
      (n < neededSize size align → σ.heap.malloc size align = some (0, σ.heap)) ∧
      (neededSize size align ≤ n →
        ((∃ heap', σ.heap.malloc size align = some (0, heap')) ↔
          (∀ b ∈ l, (header σ.heap.mem b).isFree = true →
            ∃ c, mapping (header σ.heap.mem b).size = some c ∧ toLex c ≤ toLex (f, k)) ∧
          ∀ b, σ.heap.freeLists f k = some b →
            (header σ.heap.mem b).size < neededSize size align) ∧
        ∀ b ∈ l, (header σ.heap.mem b).isFree = true →
          classStart f (k + 1) ≤ (header σ.heap.mem b).size → H + n + 8 < 2 ^ 64 →
            ∃ ptr heap', σ.heap.malloc size align = some (ptr, heap') ∧ ptr ≠ 0) ∧
      (∀ b heap' r, σ.heap.findBlock f k (neededSize size align) = some (some b, heap') →
        consumed b size (max align 8) = some r → r.2 ≤ (header heap'.mem b).size) ∧
      (∀ heap', σ.heap.malloc size align = some (0, heap') → heap' = σ.heap) ∧
      (H + n + 8 < 2 ^ 64 → ∃ r, σ.heap.malloc size align = some r) := by
  have h64 : max align 8 + size + 8 < 2 ^ 64 := by omega
  have hneed := neededFor_eq h64
  have h32 : 32 ≤ neededSize size align := le_neededSize
  obtain ⟨f, k, hm⟩ := mapping_isSome (n := neededSize size align) (by omega)
    (by rw [neededSize]; omega)
  rcases run_cases h8 hn hinit behind_of_smallFrees hrun with
    ⟨hlt, htiny, rfl⟩ | ⟨bs, L, hinv, htot⟩
  · -- too small for a block: there is nothing to find
    have hcls : heap.chooseClass f k (neededSize size align) = none := htiny.chooseClass h32
    have hnull := malloc_of_chooseClass_eq_none htiny.aligned hneed hm hcls
    refine ⟨[H], f, k, init_walk hinit hn, hm, fun _ => hnull, fun hle => absurd hle (by omega),
      fun b heap' r hfind _ => ?_, fun heap' hr => (htiny.malloc hr).2, fun _ => ⟨_, hnull⟩⟩
    dsimp only at hfind
    rw [findBlock, peeked_aligned htiny.aligned, hcls] at hfind
    cases (Prod.mk.inj (Option.some.inj hfind)).1
  · have hrest := hinv.rest
    have hreturns : H + n + 8 < 2 ^ 64 → ∃ r, σ.heap.malloc size align = some r := fun htop =>
      (exists_malloc_iff hrest hal h64 (htot ▸ htop)).mpr ⟨f, k, hm⟩
    have hnull := hrest.malloc_eq_null_iff hneed hm
    refine ⟨(place H bs).map Prod.fst, f, k, hrest.walk, hm, fun hlt => ?_, fun hle => ⟨?_, ?_⟩,
      fun b heap' r hfind hr => consumed_le_size hrest hneed hm hfind hr, fun heap' hr => ?_,
      hreturns⟩
    · exact malloc_of_chooseClass_eq_none hrest.hole.index.aligned hneed hm
        (hrest.chooseClass_of_lt (neededSize_lt h64) hm (htot ▸ hlt))
    · rw [hnull, hrest.chooseClass_eq_none_iff (htot ▸ hsmall) h32 (htot ▸ hle) hm,
        hrest.forall_free_iff (P := fun m => ∃ c, mapping m = some c ∧ toLex c ≤ toLex (f, k))]
    · intro b hb hfr hstart htop
      obtain ⟨⟨ptr, heap'⟩, hr⟩ := hreturns htop
      refine ⟨ptr, heap', hr, ?_⟩
      rintro rfl
      exact hrest.forall_free_iff (P := fun m => ¬ classStart f (k + 1) ≤ m) |>.mpr
        (fun a m ha hle' => hrest.chooseClass_ne_none (htot ▸ hsmall) h32 (htot ▸ hle) hm ha hle'
          (hnull.mp ⟨heap', hr⟩)) b hb hfr hstart
    · rcases malloc_cases hrest hr with ⟨-, -, rfl⟩ | ⟨a, bs', L', -, -, hcarve, -⟩
      · rfl
      · have := hcarve.ptr_ge
        omega

/-- A fresh heap of 1 KiB has one free block, of a higher class than any request for 128 bytes. -/
theorem malloc_refuses_iff_kilobyte : ∃ heap ptr heap',
    (new fun _ => 0).init 4096 1024 = some heap ∧
    heap.malloc 128 8 = some (ptr, heap') ∧ ptr ≠ 0 ∧ heap.malloc 1024 8 = some (0, heap) := by
  have hgo : (((new fun _ => 0).init 4096 1024).any fun heap =>
      (header heap.mem 4096).isFree && decide ((header heap.mem 4096).size = 1024)) = true := by
    decide +kernel
  simp only [Option.any_eq_true, Bool.and_eq_true, decide_eq_true_eq] at hgo
  obtain ⟨heap, hinit, hfree, hsize⟩ := hgo
  obtain ⟨l, f, k, hwalk, hm, -, hsmall, -⟩ := malloc_refuses_iff _ (by decide) (by decide)
    (by decide) hinit (.nil _) (⟨3, rfl⟩ : Nat.isPowerOfTwo 8) (show 128 + 8 ≤ 2 ^ 58 by decide)
  obtain ⟨-, -, -, -, -, hlarge, -⟩ := malloc_refuses_iff _ (by decide) (by decide) (by decide)
    hinit (.nil _) (⟨3, rfl⟩ : Nat.isPowerOfTwo 8) (show 1024 + 8 ≤ 2 ^ 58 by decide)
  have hclass : mapping (neededSize 128 8) = some (2, 2) := by decide +kernel
  obtain ⟨rfl, rfl⟩ := Prod.mk.inj (Option.some.inj (hm.symm.trans hclass))
  obtain ⟨hstart, hstop⟩ : heap.heapStart = 4096 ∧ heap.heapEnd = 5120 :=
    ⟨(init_header hinit (by decide)).2.1, (init_header hinit (by decide)).2.2.1⟩
  have hmem : 4096 ∈ l := by
    cases l with
    | nil => exact absurd (hstart.symm.trans (hwalk.trans hstop)) (by decide)
    | cons x l => exact List.mem_cons.mpr (.inl (hstart.symm.trans hwalk.1.symm))
  obtain ⟨ptr, heap', hr, h0⟩ := (hsmall (by decide +kernel)).2 4096 hmem hfree
    (by rw [hsize]; decide) (by decide)
  exact ⟨heap, ptr, heap', hinit, hr, h0, hlarge (by decide +kernel)⟩

/-! ## Overflow -/

/-- **Every request that `Layout` admits is answered, unless its size class overflows**: in every
state reached by requests of any kind and by frees of allocations that needed no padding, `malloc`
returns exactly if the size it needs, less its top bit, is below `2 ^ 59`.  A request for more than
the heap then gets null.  No shift of `mapping` and `find_block` is as wide as its word. -/
theorem malloc_returns_iff (mem : Mem) (h8 : H % 8 = 0) (hn : n % 8 = 0)
    (htop : H + n + 8 < 2 ^ 64) (hinit : (new mem).init H n = some heap)
    (hrun : Run Sys.exec Sys.Unpadded ⟨heap, []⟩ ops σ) (hal : align.isPowerOfTwo)
    (hlayout : size + (align - 1) ≤ 2 ^ 63 - 1) :
    ((∃ r, σ.heap.malloc size align = some r) ↔
        neededSize size align - 2 ^ (neededSize size align).log2 < 2 ^ 59) ∧
      (∀ r, σ.heap.malloc size align = some r → n < neededSize size align → r = (0, σ.heap)) ∧
      (neededSize size align).log2 < 64 ∧
      ∀ f k, mapping (neededSize size align) = some (f, k) → f + 1 < 32 ∧ k < 32 := by
  have h64 : max align 8 + size + 8 < 2 ^ 64 := by omega
  have hneed := neededFor_eq h64
  have h32 : 32 ≤ neededSize size align := le_neededSize
  have hclass := mapping_isSome_iff (n := neededSize size align) (by omega) (neededSize_lt h64)
  refine and_assoc.mp ⟨?_, (Nat.log2_lt (by omega)).mpr (neededSize_lt h64), fun f k hm => ?_⟩
  · rw [← hclass]
    rcases run_cases h8 hn hinit behind_of_unpadded hrun with
      ⟨-, htiny, rfl⟩ | ⟨bs, L, hinv, htot⟩
    · refine ⟨⟨fun h => h.elim fun r hr => exists_mapping_of_malloc hneed hr, ?_⟩,
        fun r hr _ => Prod.ext_iff.mpr (htiny.malloc hr)⟩
      rintro ⟨f, k, hm⟩
      exact ⟨_, malloc_of_chooseClass_eq_none htiny.aligned hneed hm (htiny.chooseClass h32)⟩
    · refine ⟨exists_malloc_iff hinv.rest hal h64 (htot ▸ htop), fun r hr hlt => ?_⟩
      obtain ⟨f, k, hm⟩ := exists_mapping_of_malloc hneed hr
      have hcls := hinv.rest.chooseClass_of_lt (neededSize_lt h64) hm (htot ▸ hlt)
      exact Option.some.inj (hr.symm.trans
        (malloc_of_chooseClass_eq_none hinv.rest.hole.index.aligned hneed hm hcls))
  · obtain ⟨hf, hk⟩ := mapping_range hm
    simp only [flCount, slCount] at hf hk
    omega

theorem malloc_returns_iff_kilobyte : ∃ heap, (new fun _ => 0).init 4096 1024 = some heap ∧
    heap.malloc (2 ^ 63 - 1) 1 = some (0, heap) := by
  have hgo : ((new fun _ => 0).init 4096 1024).isSome = true := by decide +kernel
  obtain ⟨heap, hinit⟩ := Option.isSome_iff_exists.mp hgo
  obtain ⟨hreturns, hnull, -⟩ := malloc_returns_iff _ (by decide) (by decide) (by decide) hinit
    (.nil _) (⟨0, rfl⟩ : Nat.isPowerOfTwo 1) (show 2 ^ 63 - 1 + (1 - 1) ≤ 2 ^ 63 - 1 by decide)
  obtain ⟨r, hr⟩ := hreturns.mpr (by decide +kernel)
  exact ⟨heap, hinit, by rw [hr, hnull r hr (by decide +kernel)]⟩

/-- **A request that panics**: on the kernel's own heap, `size ^ (1 << fl)` is `2 ^ 61` and a bit,
and 32 times that is no `usize`. -/
theorem malloc_overflows : ∃ heap, (new fun _ => 0).init 0x444444440000 1048576 = some heap ∧
    heap.malloc 0x6000000000000000 1 = none ∧ 0x6000000000000000 + (1 - 1) ≤ 2 ^ 63 - 1 := by
  have hgo : (((new fun _ => 0).init 0x444444440000 1048576).any fun heap =>
      (heap.malloc 0x6000000000000000 1).isNone) = true := by decide +kernel
  simp only [Option.any_eq_true, Option.isNone_iff_eq_none] at hgo
  obtain ⟨heap, hinit, hnone⟩ := hgo
  exact ⟨heap, hinit, hnone, by decide⟩

end YontiOs.Tlsf
