import YontiOs.Allocator.Soundness

/-!
# Allocator/RoundTrip — `malloc`, then `free` of what it returned

`free` finds a block's header 8 bytes before the pointer, while `malloc` leaves alignment padding
between the two.  The two agree when the chosen block needs no padding, and only then
(`free_undoes_malloc_iff`); otherwise `free` reads its header out of the padding.
-/

namespace YontiOs.Tlsf

open TlsfAllocator

variable {H n t x ptr size align : ℕ} {s s' : Sys} {heap heap' heap'' : TlsfAllocator} {m : Mem}
  {bs bs' X Z : List Block} {L L' : ℕ × ℕ → List ℕ} {b : Block} {al : Alloc} {op : Op}

/-- Two heaps have the same physical blocks, with the same sizes and free flags. -/
def SameBlocks (heap heap' : TlsfAllocator) : Prop :=
  ∃ l, Walk heap.mem heap.heapStart l heap.heapEnd ∧
    Walk heap'.mem heap'.heapStart l heap'.heapEnd ∧
    ∀ a ∈ l, (header heap'.mem a).size = (header heap.mem a).size ∧
      (header heap'.mem a).isFree = (header heap.mem a).isFree

/-- The header `free(ptr)` consults is the header of the block that `ptr` points into. -/
def FindsHeader (heap : TlsfAllocator) (ptr : ℕ) : Prop :=
  ∃ l, Walk heap.mem heap.heapStart l heap.heapEnd ∧
    ∃ x ∈ l, x + headerSize ≤ ptr ∧ ptr ≤ x + (header heap.mem x).size ∧ ptr - headerSize = x

/-- **The round trip**: `free` finds the header of the carved block, and puts the blocks back. -/
def RoundTrip (heap : TlsfAllocator) (ptr : ℕ) (heap' : TlsfAllocator) : Prop :=
  FindsHeader heap' ptr ∧ ∃ heap'', heap'.free ptr = some heap'' ∧ SameBlocks heap heap''

/-- What a heap at rest shows to a walk. -/
theorem AtRest.walk (h : AtRest H heap bs L) :
    Walk heap.mem heap.heapStart ((place H bs).map Prod.fst) heap.heapEnd :=
  h.heapOk.tiles

theorem AtRest.walk_unique (h : AtRest H heap bs L) {l : List ℕ}
    (hl : Walk heap.mem heap.heapStart l heap.heapEnd) : l = (place H bs).map Prod.fst := by
  have hreg := h.hole.region
  have hback := h.hole.back
  simp only [total_nil, add_zero] at hback
  refine (tagged_append.mp hback).1.walk_unique h.hole.backSized (by simpa using hreg.small) ?_
  rw [hreg.start, hreg.stop] at hl
  simpa using hl

theorem AtRest.header_place (h : AtRest H heap bs L) (hx : (x, b) ∈ place H bs) :
    (header heap.mem x).size = b.size ∧ (header heap.mem x).isFree = b.free := by
  have hback := h.hole.back
  simp only [total_nil, add_zero] at hback
  exact (tagged_append.mp hback).1.header_place h.hole.backSized
    (by simpa using h.hole.region.small) hx

/-- The same list of blocks is the same blocks. -/
theorem AtRest.sameBlocks (h : AtRest H heap bs L) (h' : AtRest H heap' bs L') :
    SameBlocks heap heap' := by
  refine ⟨_, h.walk, h'.walk, fun a ha => ?_⟩
  obtain ⟨⟨x, b⟩, hx, rfl⟩ := List.mem_map.mp ha
  rw [(h.header_place hx).1, (h.header_place hx).2]
  exact h'.header_place hx

/-! ## Releasing what was carved -/

/-- Next to a free block no other is. -/
theorem Coalesced.neighbours_used (h : Coalesced (X ++ ⟨n, true⟩ :: Z)) :
    (X.getLastD sentinel).free = false ∧ (Z.headD sentinel).free = false := by
  obtain ⟨-, hZ, hX⟩ := List.isChain_append.mp h
  constructor
  · rcases X.eq_nil_or_concat with rfl | ⟨X, c, rfl⟩
    · rfl
    · rw [List.concat_eq_append, List.getLastD_concat]
      have := hX c (by simp) _ rfl
      simpa using this
  · cases Z with
    | nil => rfl
    | cons c Z =>
      have := (List.isChain_cons_cons.mp hZ).1
      simpa using this

theorem mergeNext_of_not_free (h : (Z.headD sentinel).free = false) : mergeNext n Z = (n, Z) :=
  match Z, h with
  | [], _ => rfl
  | ⟨_, false⟩ :: _, _ => rfl

/-- **Releasing a carved block gives back the block it was carved from.** -/
theorem release_carve (h : Coalesced (X ++ ⟨n, true⟩ :: Z)) (htn : t ≤ n) :
    ∃ Y, carve t n ++ Z = ⟨carvedSize t n, false⟩ :: Y ∧
      release X (carvedSize t n) Y = X ++ ⟨n, true⟩ :: Z := by
  obtain ⟨hX, hZ⟩ := h.neighbours_used
  rw [carve, carvedSize]
  split_ifs
  · refine ⟨⟨n - t, true⟩ :: Z, rfl, ?_⟩
    rw [release, mergeNext, mergePrev_of_not_free hX, Nat.add_sub_cancel' htn]
  · refine ⟨Z, rfl, ?_⟩
    rw [release, mergeNext_of_not_free hZ, mergePrev_of_not_free hX]

/-- **On a heap at rest** the round trip succeeds when the chosen block needs no padding. -/
theorem AtRest.roundTrip_iff (h : AtRest H heap bs L)
    (hm : heap.malloc size align = some (ptr, heap')) (h0 : ptr ≠ 0) :
    RoundTrip heap ptr heap' ↔
      ∃ a, heap.chosenBlock size align = some a ∧ (a + headerSize) % max align headerSize = 0 := by
  rcases malloc_cases h hm with ⟨-, rfl, -⟩ | ⟨a, bs', L', ha, hrest, hcarve, -⟩
  · exact absurd rfl h0
  have hiff := hcarve.ptr_eq_iff
  rw [Nat.dvd_iff_mod_eq_zero] at hiff
  simp only [ha, Option.some.injEq, exists_eq_left', show headerSize = 8 from rfl, ← hiff]
  obtain ⟨n, hplace, hfit, -, -, -⟩ := hcarve.fits h.hole.backSized
  have hge := hfit.ge
  have hle := hfit.le
  dsimp only at hge hle
  constructor
  · -- the block the pointer lies in is the carved one
    rintro ⟨⟨l, hl, x, hx, h1, h2, h3⟩, -⟩
    rw [hrest.walk_unique hl] at hx
    obtain ⟨⟨y, c⟩, hy, rfl⟩ := List.mem_map.mp hx
    have hc := (hrest.hole.backSized c (place_bounds hy).1).2
    dsimp only at h1 h2 h3
    rw [(hrest.header_place hy).1] at h2
    simp only [headerSize] at h1 h3
    rcases place_separate hplace hy with ⟨rfl, -⟩ | hs | hs <;> dsimp only at * <;> omega
  · rintro rfl
    refine ⟨⟨_, hrest.walk, a, List.mem_map.mpr ⟨_, hplace, rfl⟩, le_rfl, ?_, by simp [headerSize]⟩,
      ?_⟩
    · rw [(hrest.header_place hplace).1]
      dsimp only
      omega
    · obtain ⟨X, n, Z, t, rfl, rfl, rfl, -, htn, -⟩ := hcarve.exists_carve
      obtain ⟨Y, hY, hrel⟩ := release_carve (t := t) h.coalesced htn
      rw [List.append_assoc, hY] at hrest
      obtain ⟨heap'', L'', hfree, hrest'', -⟩ := free_spec hrest
      rw [hrel] at hrest''
      exact ⟨heap'', hfree, h.sameBlocks hrest''⟩

/-! ## Heaps too small for a block -/

/-- A heap with nothing but blocks below the smallest. -/
structure Tiny (heap : TlsfAllocator) : Prop where
  flBit : ∀ i, heap.flBitmap.getLsbD i = true → i = 0
  size : ∀ f k a, heap.freeLists f k = some a → (header heap.mem a).size < 32
  aligned : ∀ f k a, heap.freeLists f k = some a → 8 ∣ a

/-- No request finds a block there. -/
theorem Tiny.chooseClass {fli sl needed : ℕ} (h : Tiny heap) (h32 : 32 ≤ needed) :
    heap.chooseClass fli sl needed = none := by
  refine chooseClass_eq_none_iff.mpr ⟨fun k _ => ?_, fun f hf => ?_⟩
  · cases hb : heap.freeLists fli k with
    | none => simp [suits, hb]
    | some a =>
      have hlt := h.size fli k a hb
      simp only [suits, hb, Bool.and_eq_false_iff, decide_eq_false_iff_not]
      exact .inr (by omega)
  · by_contra hbit
    have := h.flBit f (by simpa using hbit)
    omega

/-- The first header `init` leaves behind, whatever the region's size. -/
theorem init_header {mem : Mem} (hinit : (new mem).init H n = some heap) (hn : n % 8 = 0) :
    8 ≤ n ∧ heap.heapStart = H ∧ heap.heapEnd = H + n ∧
      header heap.mem H = tagged 0 n true false := by
  obtain ⟨h0, hsmall, hfits, hH, h4⟩ := init_eq_some hinit
  rw [init_eq mem h0 hsmall hfits hH h4] at hinit
  have h8 : 8 ≤ n := by
    rcases n.eq_zero_or_pos with rfl | hpos
    · cases hinit
    · omega
  obtain ⟨f, k, hmap⟩ := mapping_isSome (n := n) (by omega) (by omega)
  rw [insert_eq hmap hH (by simp [region])] at hinit
  obtain rfl := Option.some.inj hinit
  refine ⟨h8, rfl, rfl, ?_⟩
  rw [← header_region mem h8]
  exact header_congr fun x h1 h2 => putNode_of_notMem (by simp [nodeOf, headerSize]; omega)

/-- The walk over a fresh heap meets one header. -/
theorem init_walk {mem : Mem} (hinit : (new mem).init H n = some heap) (hn : n % 8 = 0) :
    Walk heap.mem heap.heapStart [H] heap.heapEnd := by
  obtain ⟨h8, hstart, hstop, hhead⟩ := init_header hinit hn
  obtain ⟨-, hsmall, -⟩ := init_eq_some hinit
  rw [hstart, hstop]
  exact ⟨rfl, by omega, by rw [hhead, size_tagged (by omega) hsmall]; rfl⟩

/-- `init` with a region below the smallest block lists it all the same. -/
theorem tiny_of_init {mem : Mem} (hinit : (new mem).init H n = some heap) (hn : n % 8 = 0)
    (h32 : n < 32) : Tiny heap := by
  obtain ⟨h8, -, -, hhead⟩ := init_header hinit hn
  obtain ⟨h0, hsmall, hfits, hH, h4⟩ := init_eq_some hinit
  rw [init_eq mem h0 hsmall hfits hH h4] at hinit
  obtain ⟨f, k, hmap⟩ := mapping_isSome (n := n) (by omega) (by omega)
  obtain ⟨hn0, hf⟩ := mapping_fst (by omega) hmap
  have hlog : n.log2 < 5 := (Nat.log2_lt hn0).mpr (by omega)
  obtain rfl : f = 0 := by
    simp only [minFl, flCount] at hf
    omega
  rw [insert_eq hmap hH (by simp [region])] at hinit
  obtain rfl := Option.some.inj hinit
  have honly : ∀ f' k' a, ((region mem H n).setList 0 k (some H)).freeLists f' k' = some a →
      a = H := by
    intro f' k' a ha
    rw [freeLists_setList (L := fun _ => []) (l := [H]) (fun _ _ => rfl)
      (show some H = _ from rfl)] at ha
    by_cases hc : (f', k') = (0, k)
    · simpa [hc] using ha.symm
    · simp [Function.update_of_ne hc] at ha
  refine ⟨fun i hi => ?_, fun f' k' a ha => ?_, fun f' k' a ha => honly f' k' a ha ▸ hH⟩
  · dsimp only at hi
    rw [Word.getLsbD_setBit (by decide)] at hi
    simpa [region] using hi
  · rw [honly f' k' a ha, hhead, size_tagged (by omega) (by omega)]
    exact h32

theorem Tiny.malloc (h : Tiny heap) (hm : heap.malloc size align = some (ptr, heap')) :
    ptr = 0 ∧ heap' = heap := by
  simp only [TlsfAllocator.malloc, Option.bind_eq_bind, Option.bind_eq_some_iff] at hm
  obtain ⟨needed, hneed, ⟨fli, sl⟩, -, ⟨b, heap₁⟩, hfind, hm⟩ := hm
  obtain ⟨t, -, rfl⟩ := neededFor_eq_some (le_max_right _ _) hneed
  rw [findBlock, peeked_aligned h.aligned, h.chooseClass (le_max_right _ _)] at hfind
  obtain ⟨rfl, rfl⟩ := Prod.mk.inj (Option.some.inj hfind)
  obtain ⟨rfl, rfl⟩ := Prod.mk.inj (Option.some.inj hm)
  exact ⟨rfl, rfl⟩

/-- A heap too small for a block stays as `init` left it. -/
theorem Tiny.run {ask : ℕ → ℕ → Prop} {give : Alloc → Prop} {ops : List Op} (h : Tiny heap)
    (hrun : Run Sys.exec (Sys.Allows ask give) ⟨heap, []⟩ ops s) : s = ⟨heap, []⟩ := by
  refine hrun.invariant (P := (· = (⟨heap, []⟩ : Sys))) ?_ rfl
  rintro s op s' rfl hop he
  rcases hop.malloc_or_live with ⟨size, align, rfl⟩ | ⟨al, hal⟩
  · simp only [Sys.exec, Option.bind_eq_bind, Option.bind_eq_some_iff] at he
    obtain ⟨⟨ptr, heap₁⟩, hm, he⟩ := he
    obtain ⟨rfl, rfl⟩ := h.malloc hm
    exact (Option.some.inj he).symm
  · cases hal

/-- **The states a run reaches**, on a region of any size: one too small for a block is as `init`
left it, and any other is in order. -/
theorem run_cases {mem : Mem} {ask : ℕ → ℕ → Prop} {give : Alloc → Prop} {ops : List Op}
    (h8 : H % 8 = 0) (hn : n % 8 = 0) (hinit : (new mem).init H n = some heap)
    (hbehind : Behind H ask give) (hrun : Run Sys.exec (Sys.Allows ask give) ⟨heap, []⟩ ops s) :
    (n < 32 ∧ Tiny heap ∧ s = ⟨heap, []⟩) ∨ ∃ bs L, s.Inv H bs L ∧ total bs = n := by
  obtain ⟨hH, hsmall, hfits, -⟩ := init_eq_some hinit
  rcases lt_or_ge n 32 with h32 | h32
  · have htiny := tiny_of_init hinit hn h32
    exact .inl ⟨h32, htiny, htiny.run hrun⟩
  · obtain ⟨heap₀, hinit₀, hfresh⟩ := init_inv mem (Nat.pos_of_ne_zero hH) h8 hn h32 hsmall hfits
    obtain rfl := Option.some.inj (hinit.symm.trans hinit₀)
    exact .inr (run_serves hbehind hrun ⟨hfresh, fun _ h => nomatch h⟩).1

/-! ## Runs -/

/-- Requests of any size and alignment; what is freed was carved without padding. -/
abbrev Sys.Unpadded : Sys → Op → Prop :=
  Sys.Allows (fun _ align => align.isPowerOfTwo) fun al =>
    (al.block + headerSize) % max al.align headerSize = 0

theorem behind_of_unpadded {ask : ℕ → ℕ → Prop} :
    Behind H ask fun al => (al.block + headerSize) % max al.align headerSize = 0 := by
  intro s bs L al hinv hal _ hmod
  obtain ⟨b, -, hfit⟩ := hinv.fits al hal
  exact hfit.behind.mpr (Nat.dvd_of_mod_eq_zero hmod)

/-- **`free` undoes `malloc` exactly when the chosen block needs no padding**, on every heap reached
by requests of any kind and by frees of allocations that needed none. -/
theorem free_undoes_malloc_iff (mem : Mem) (h8 : H % 8 = 0) (hn : n % 8 = 0)
    (hinit : (new mem).init H n = some heap) {ops : List Op}
    (hrun : Run Sys.exec Sys.Unpadded ⟨heap, []⟩ ops s)
    (hm : s.heap.malloc size align = some (ptr, heap')) (h0 : ptr ≠ 0) :
    RoundTrip s.heap ptr heap' ↔ ∃ a, s.heap.chosenBlock size align = some a ∧
      (a + headerSize) % max align headerSize = 0 := by
  rcases run_cases h8 hn hinit behind_of_unpadded hrun with ⟨-, htiny, rfl⟩ | ⟨bs, L, hinv, -⟩
  · exact absurd (htiny.malloc hm).1 h0
  · exact hinv.rest.roundTrip_iff hm h0

theorem free_undoes_malloc_unpadded :
    ∃ heap heap', (new fun _ => 0).init 4096 1024 = some heap ∧
      heap.malloc 128 8 = some (4104, heap') ∧ RoundTrip heap 4104 heap' := by
  have heval : (((new fun _ => 0).init 4096 1024).bind fun heap => (heap.malloc 128 8).bind fun r =>
      (heap.chosenBlock 128 8).bind fun a => some (r.1, a)) = some (4104, 4096) := by decide +kernel
  simp only [Option.bind_eq_some_iff] at heval
  obtain ⟨heap, hinit, ⟨ptr, heap'⟩, hm, a, ha, heq⟩ := heval
  obtain ⟨rfl, rfl⟩ := Prod.mk.inj (Option.some.inj heq)
  exact ⟨heap, heap', hinit, hm, (free_undoes_malloc_iff _ (by decide) (by decide) hinit (.nil _) hm
    (by decide)).mpr ⟨4096, ha, by decide⟩⟩

/-- **Padding breaks the round trip**: on a fresh heap of 1 KiB, `malloc(128, 16)` skips 8 bytes
behind the header of the block at 4096, and `free` reads the header at 4104, which nobody wrote. -/
theorem free_panics_on_padded_pointer :
    ∃ heap heap', (new fun _ => 0).init 4096 1024 = some heap ∧
      heap.malloc 128 16 = some (4112, heap') ∧ heap.chosenBlock 128 16 = some 4096 ∧
      heap'.free 4112 = none ∧ ¬ RoundTrip heap 4112 heap' := by
  have heval : (((new fun _ => 0).init 4096 1024).bind fun heap =>
      (heap.malloc 128 16).bind fun r =>
      (heap.chosenBlock 128 16).bind fun a => some (r.1, a, (r.2.free r.1).isNone))
        = some (4112, 4096, true) := by decide +kernel
  simp only [Option.bind_eq_some_iff] at heval
  obtain ⟨heap, hinit, ⟨ptr, heap'⟩, hm, a, ha, heq⟩ := heval
  obtain ⟨rfl, rfl, hfree⟩ := by simpa only [Option.some.injEq, Prod.mk.injEq] using heq
  have hnone : heap'.free 4112 = none := Option.isNone_iff_eq_none.mp hfree
  refine ⟨heap, heap', hinit, hm, ha, hnone, ?_⟩
  rintro ⟨-, heap'', hfree', -⟩
  rw [hnone] at hfree'
  cases hfree'

end YontiOs.Tlsf
