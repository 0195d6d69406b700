import YontiOs.Allocator.Requests

/-!
# Allocator/FreshHeap — the order of the size classes, and what a fresh heap serves

The first level of a class stops at 18, the second level does not: it starts anew at every power of
two.  So from 16 MiB on the leading digits alone decide, and a larger size may be of a lower class
(`mapping_le_iff`).

A fresh heap is one block, listed under the class of the heap's size.  It serves the requests whose
class is not above that one, of those that fit (`Fresh.malloc_ne_null_iff`).  There is one only for
a region at a multiple of 8 and of a multiple of 4 bytes: `init` writes a free node and a sentinel.
-/

namespace YontiOs.Tlsf

open TlsfAllocator

variable {H n a b f k fli sl t size align needed : ℕ} {s s' heap : TlsfAllocator} {mem : Mem}
  {c d : ℕ × ℕ}

/-! ## The order of classes -/

/-- From 8 MiB on every size is of the last first level. -/
theorem mapping_fst_eq_of_le (h23 : 2 ^ 23 ≤ n) (h64 : n < 2 ^ 64) (hm : mapping n = some c) :
    c.1 = flCount - 1 := by
  obtain ⟨h0, hf⟩ := mapping_fst h64 hm
  have hlog : 23 ≤ n.log2 := (Nat.le_log2 h0).mpr h23
  simp only [minFl, flCount] at hf ⊢
  omega

theorem mapping_fst_lt_of_lt (h0 : n ≠ 0) (h23 : n < 2 ^ 23) (hm : mapping n = some c) :
    c.1 < flCount - 1 := by
  obtain ⟨-, hf⟩ := mapping_fst (h23.trans (by decide)) hm
  have hlog : n.log2 < 23 := (Nat.log2_lt h0).mpr h23
  simp only [minFl, flCount] at hf ⊢
  omega

/-- Below 16 MiB classes are ordered as sizes are. -/
theorem mapping_mono (h32 : 32 ≤ a) (hab : a ≤ b) (h24 : b < 2 ^ 24) (hc : mapping a = some c)
    (hd : mapping b = some d) : toLex c ≤ toLex d := by
  by_contra hno
  have hnext := classStart_le (mapping_range hd).2 (not_le.mp hno)
  have hlo := (mapping_bounds h32 (by omega) hc).1
  have hhi := (mapping_bounds (h32.trans hab) h24 hd).2
  omega

/-- The larger size is below 16 MiB, or the smaller one below 8 MiB, or their leading binary digits
are in order. -/
def InOrder (a b : ℕ) : Prop := b < 2 ^ 24 ∨ a < 2 ^ 23 ∨ leadingBits a ≤ leadingBits b

/-- **When classes are ordered as sizes are.** -/
theorem mapping_le_iff (h32 : 32 ≤ a) (hab : a ≤ b) (h64 : b < 2 ^ 64) (hc : mapping a = some c)
    (hd : mapping b = some d) : toLex c ≤ toLex d ↔ InOrder a b := by
  by_cases hb : b < 2 ^ 24
  · exact iff_of_true (mapping_mono h32 hab hb hc hd) (.inl hb)
  · have hd1 := mapping_fst_eq_of_le (by omega) h64 hd
    by_cases ha : a < 2 ^ 23
    · have hc1 := mapping_fst_lt_of_lt (by omega) ha hc
      exact iff_of_true (Prod.Lex.toLex_le_toLex.mpr (.inl (by omega))) (.inr (.inl ha))
    · have hc1 := mapping_fst_eq_of_le (by omega) (by omega) hc
      have hca := leadingBits_of_mapping h32 (by omega) hc
      have hdb := leadingBits_of_mapping (h32.trans hab) h64 hd
      simp only [Prod.Lex.toLex_le_toLex, hc1, hd1, lt_irrefl, false_or, true_and, InOrder, ha, hb,
        hca, hdb, Nat.add_le_add_iff_left]

/-! ## Taking a block -/

/-- `alloc_from` on a block that passes the size check returns, wherever the block is. -/
theorem exists_allocFrom {L : ℕ × ℕ → List ℕ} {ptr : ℕ} (h : Index s L) (h8 : 8 ∣ a)
    (h4 : 4 ∣ n) (hsize : (header s.mem a).size = n) (hn : n < 2 ^ 32) (hfits : a + n < 2 ^ 64)
    (hptr : alignUp (a + 8) align = some ptr) (ht : alignUp (ptr - a + size) 8 = some t)
    (hle : max t 32 ≤ n) : ∃ s', s.allocFrom a size align = some (ptr, s') := by
  obtain ⟨-, -, ht8, -⟩ := alignUp_eq_some ht
  have hnext : derefHeader (a + n) = some () := deref_of_dvd (by omega)
  rw [allocFrom_of_le h8 hsize hn hptr ht hle]
  split_ifs with hsplit
  · have hrem : 8 ∣ a + max t 32 := by omega
    obtain ⟨f, k, hm⟩ := mapping_isSome (n := n - max t 32) (by omega) (by omega)
    have hend : a + max t 32 + (n - max t 32) = a + n := by omega
    simp only [splitBlock, BlockHeader.set, if_pos (show max t 32 ≤ 2 ^ 32 - 1 by omega),
      if_pos (show n - max t 32 ≤ 2 ^ 32 - 1 by omega), Option.bind_eq_bind, Option.bind_some,
      Word.add_of_lt (show a + max t 32 < 2 ^ 64 by omega), derefHeader_of_dvd hrem,
      Word.add_of_lt (show a + max t 32 + (n - max t 32) < 2 ^ 64 by omega), hend, hnext, nonNull,
      if_neg (show a + max t 32 ≠ 0 by omega)]
    rw [insert_eq hm hrem ?_]
    · exact ⟨_, rfl⟩
    · exact h.aligned f k
  · simp only [takeBlock, Word.add_of_lt hfits, hnext, Option.bind_eq_bind, Option.bind_some,
      Option.map_some]
    exact ⟨_, rfl⟩

/-! ## A fresh heap -/

/-- The lists of a heap of one free block. -/
def only (c : ℕ × ℕ) (H : ℕ) : ℕ × ℕ → List ℕ := Function.update (fun _ => []) c [H]

theorem mem_only : b ∈ only c H d ↔ d = c ∧ b = H := by
  by_cases hdc : d = c
  · subst hdc
    simp [only]
  · simp [only, hdc]

theorem only_ne_nil : only c H d ≠ [] ↔ d = c := by
  by_cases hdc : d = c
  · subst hdc
    simp [only]
  · simp [only, hdc]

/-- One block of `n` bytes is listed, at `H`, under the class `c`. -/
structure Fresh (s : TlsfAllocator) (H n : ℕ) (c : ℕ × ℕ) : Prop where
  index : Index s (only c H)
  owned : header s.mem H = tagged 0 n true false
  dvd : 4 ∣ n
  small : n < 2 ^ 32

theorem not_nodeByte_only {x : ℕ} (hx : x < H + 8) : ¬ NodeByte (only c H) x := by
  rw [not_nodeByte_iff]
  rintro b ⟨d, hb⟩
  obtain ⟨-, rfl⟩ := mem_only.mp hb
  exact .inl hx

/-- **`init` makes a fresh heap** of an aligned region. -/
theorem exists_fresh (mem : Mem) (h0 : H ≠ 0) (h8 : 8 ∣ H) (h4 : 4 ∣ n) (h32 : 32 ≤ n)
    (hsmall : n < 2 ^ 32) (hfits : H + n < 2 ^ 64) (hm : mapping n = some c) :
    ∃ s, (new mem).init H n = some s ∧ Fresh s H n c := by
  obtain ⟨s, hins, hindex, -, -, hframe⟩ :=
    (index_empty (s := region mem H n) rfl rfl rfl).insert_spec (a := H) (f := c.1) (k := c.2) hm
      (fun ⟨_, h⟩ => nomatch h) ⟨Nat.pos_of_ne_zero h0, by omega⟩ h8 fun _ ⟨_, h⟩ => nomatch h
  refine ⟨s, (init_eq mem h0 hsmall hfits h8 h4).trans hins, hindex, ?_, h4, hsmall⟩
  rw [header_congr fun x _ hx => hframe x (not_nodeByte_only hx), header_region mem (by omega)]

section Fresh

variable (h : Fresh s H n c)
include h

theorem Fresh.aligned : 8 ∣ H := h.index.threads.aligned ⟨c, mem_only.mpr ⟨rfl, rfl⟩⟩

theorem Fresh.size_eq : (header s.mem H).size = n := by
  have := h.dvd
  rw [h.owned, size_tagged (by omega) h.small]

theorem Fresh.head_eq : s.freeLists c.1 c.2 = some H := by
  rw [h.index.roots.head, only, Function.update_self, List.head?_cons]

theorem Fresh.suits_iff : s.suits f needed k = true ↔ (f, k) = c ∧ needed ≤ n := by
  rw [suits, Bool.and_eq_true, h.index.roots.slBit, only_ne_nil]
  refine and_congr_right ?_
  rintro rfl
  rw [h.head_eq, decide_eq_true_eq, h.size_eq]

theorem Fresh.flBit_iff : s.flBitmap.getLsbD f = true ↔ f = c.1 := by
  simp only [h.index.roots.flBit_iff, only_ne_nil]
  exact ⟨fun ⟨k, hk⟩ => congrArg Prod.fst hk, fun hf => ⟨c.2, by rw [hf]⟩⟩

/-- **The choice of `find_block` on a fresh heap** is its one class, or none. -/
theorem Fresh.chooseClass_eq : s.chooseClass fli sl needed =
    if needed ≤ n ∧ fli = c.1 ∧ sl ≤ c.2 ∨ fli < c.1 then some c else none := by
  have hnone : s.chooseClass fli sl needed = none ↔
      ¬ (needed ≤ n ∧ fli = c.1 ∧ sl ≤ c.2 ∨ fli < c.1) := by
    rw [chooseClass_eq_none_iff]
    simp only [← Bool.not_eq_true, h.suits_iff, h.flBit_iff, not_or]
    refine and_congr ?_ ?_
    · constructor
      · rintro hall ⟨hle, rfl, hsl⟩
        exact hall c.2 hsl ⟨rfl, hle⟩
      · rintro hno k hk ⟨rfl, hle⟩
        exact hno ⟨hle, rfl, hk⟩
    · exact ⟨fun hall hlt => hall c.1 hlt rfl, fun hno f hf hfc => hno (hfc ▸ hf)⟩
  split_ifs with hcond
  · cases hcls : s.chooseClass fli sl needed with
    | none => exact absurd hcond (hnone.mp hcls)
    | some d => exact congrArg some (only_ne_nil.mp (h.index.roots.chooseClass_cases hcls).1)
  · exact hnone.mpr hcond

/-- Popping the one block leaves its header as it is. -/
theorem Fresh.findBlock_eq (hm : mapping n = some c) (hc : s.chooseClass fli sl needed = some c) :
    ∃ s₁ L, s.findBlock fli sl needed = some (some H, s₁) ∧ Index s₁ L ∧
      (header s₁.mem H).size = n := by
  have hrange := h.index.roots.range c.1 c.2 (only_ne_nil.mpr rfl)
  obtain ⟨s₁, hrem, hindex, -, -, hframe⟩ :=
    h.index.remove_spec (f := c.1) (k := c.2) (mem_only.mpr ⟨rfl, rfl⟩) (h.size_eq.symm ▸ hm)
  refine ⟨s₁, _, ?_, hindex, ?_⟩
  · simp only [findBlock, h.index.peeked, hc, pop, if_pos hrange, h.head_eq, hrem,
      Option.bind_eq_bind, Option.bind_some]
  · rw [header_congr fun x _ hx => hframe x (not_nodeByte_only hx), h.size_eq]

/-- **What a fresh heap serves**: the requests that fit and are of no higher class. -/
theorem Fresh.malloc_ne_null_iff (htop : H + n + 8 < 2 ^ 64) (hm : mapping n = some c)
    (hal : align.isPowerOfTwo) (hsize : max align 8 + size + 8 < 2 ^ 64)
    (hd : mapping (neededSize size align) = some d) :
    ∃ ptr s', s.malloc size align = some (ptr, s') ∧
      (ptr ≠ 0 ↔ neededSize size align ≤ n ∧ toLex d ≤ toLex c) := by
  have hneed := neededFor_eq hsize
  have hchoice : s.chooseClass d.1 d.2 (neededSize size align) =
      if neededSize size align ≤ n ∧ toLex d ≤ toLex c then some c else none := by
    rw [h.chooseClass_eq]
    refine if_congr ?_ rfl rfl
    rw [Prod.Lex.toLex_le_toLex]
    have hlt : d.1 < c.1 → neededSize size align < n :=
      lt_of_mapping_fst_lt (neededSize_lt hsize) hd (by omega) hm
    constructor
    · rintro (⟨hle, hd1⟩ | hd1)
      · exact ⟨hle, .inr hd1⟩
      · exact ⟨(hlt hd1).le, .inl hd1⟩
    · rintro ⟨hle, hd1 | hd1⟩
      · exact .inr hd1
      · exact .inl ⟨hle, hd1⟩
  by_cases hfit : neededSize size align ≤ n ∧ toLex d ≤ toLex c
  · rw [if_pos hfit] at hchoice
    obtain ⟨s₁, L, hfind, hindex, hsize₁⟩ := h.findBlock_eq hm hchoice
    obtain ⟨j, hj⟩ : (max align 8).isPowerOfTwo := by
      rcases max_choice align 8 with hm | hm <;> rw [hm]
      · exact hal
      · exact ⟨3, rfl⟩
    have hle := hfit.1
    rw [neededSize] at hle
    obtain ⟨ptr, hptr⟩ : ∃ ptr, alignUp (H + 8) (max align 8) = some ptr :=
      ⟨_, hj ▸ alignUp_two_pow (by omega)⟩
    have h8 : H % 8 = 0 := Nat.mod_eq_zero_of_dvd h.aligned
    obtain ⟨t', ht', hneed'⟩ := neededFor_eq_some (le_max_right _ _) hneed
    obtain ⟨t, ht, htt⟩ := consumed_le h8 hptr ht'
    obtain ⟨s', halloc⟩ := exists_allocFrom hindex h.aligned h.dvd hsize₁ h.small (by omega) hptr ht
      (by rw [neededSize] at hneed'; omega)
    refine ⟨ptr, s', ?_, iff_of_true ?_ hfit⟩
    · simp only [malloc, show headerSize = 8 from rfl, hneed, hd, min_fst_of_mapping hd, hfind,
        Option.bind_eq_bind, Option.bind_some]
      exact halloc
    · have := (padding_le h8 (le_max_right _ _) hptr).1
      omega
  · rw [if_neg hfit] at hchoice
    exact ⟨0, s, malloc_of_chooseClass_eq_none h.index.aligned hneed hd hchoice,
      iff_of_false (fun h => h rfl) hfit⟩

end Fresh

/-- **Size classes are ordered, below 16 MiB.**  The classes of two sizes of at least 32 bytes that
the header field holds are in range, and in order exactly if the sizes are `InOrder`; only where
they are not can a block of a higher class be smaller than the request.  A fresh heap of `b` bytes
is made exactly if its region is aligned, and it serves a request that needs `a` of them exactly if
the two sizes are `InOrder`. -/
theorem classes_ordered_iff (h32 : 32 ≤ a) (hab : a ≤ b) (hb : b < 2 ^ 32) :
    ∃ c d, mapping a = some c ∧ mapping b = some d ∧
      (c.1 < 19 ∧ c.2 < 32) ∧ (d.1 < 19 ∧ d.2 < 32) ∧
      (toLex c ≤ toLex d ↔ InOrder a b) ∧ (toLex d < toLex c ↔ ¬ InOrder a b) ∧
      ∀ mem H size align, H ≠ 0 → H + b + 8 < 2 ^ 64 → align.isPowerOfTwo →
        max align 8 + size + 8 < 2 ^ 64 → neededSize size align = a →
        (8 ∣ H ∧ 4 ∣ b → ∃ heap ptr heap', (new mem).init H b = some heap ∧
          heap.malloc size align = some (ptr, heap') ∧ (ptr ≠ 0 ↔ InOrder a b)) ∧
        (¬ (8 ∣ H ∧ 4 ∣ b) → (new mem).init H b = none) := by
  obtain ⟨f, k, hc⟩ := mapping_isSome (n := a) (by omega) (by omega)
  obtain ⟨f', k', hd⟩ := mapping_isSome (n := b) (by omega) (by omega)
  have hiff := mapping_le_iff h32 hab (by omega) hc hd
  refine ⟨_, _, hc, hd, mapping_range hc, mapping_range hd, hiff, not_le.symm.trans hiff.not, ?_⟩
  intro mem H size align h0 htop hal hsize hneed
  refine ⟨fun ⟨h8, h4⟩ => ?_, fun hno => ?_⟩
  · obtain ⟨heap, hinit, hfresh⟩ :=
      exists_fresh mem h0 h8 h4 (h32.trans hab) hb (by omega) hd
    obtain ⟨ptr, heap', hr, hserved⟩ :=
      hfresh.malloc_ne_null_iff htop hd hal hsize (hneed.symm ▸ hc)
    refine ⟨heap, ptr, heap', hinit, hr, ?_⟩
    rw [hserved, hneed, ← hiff]
    exact and_iff_right hab
  · rw [Option.eq_none_iff_forall_ne_some]
    intro heap hinit
    exact hno (init_eq_some hinit).2.2.2

/-- A fresh heap of 1 KiB serves 32 bytes. -/
theorem classes_ordered_iff_kilobyte : ∃ heap ptr heap',
    (new fun _ => 0).init 4096 1024 = some heap ∧ heap.malloc 32 8 = some (ptr, heap') ∧
      ptr ≠ 0 := by
  obtain ⟨c, d, -, -, -, -, -, -, hserved⟩ := classes_ordered_iff (a := 40) (b := 1024)
    (by decide) (by decide) (by decide)
  obtain ⟨heap, ptr, heap', hinit, hr, hptr⟩ :=
    (hserved (fun _ => 0) 4096 32 8 (by decide) (by decide) ⟨3, rfl⟩ (by decide) (by decide)).1
      ⟨by decide, by decide⟩
  exact ⟨heap, ptr, heap', hinit, hr, hptr.mpr (.inl (by decide))⟩

/-- **The order breaks at 16 MiB**: that size is of a lower class than the size before it, and a
fresh heap of 16 MiB refuses a request for 10 MiB.  A region of 33 bytes makes no heap: its sentinel
is misaligned. -/
theorem sixteen_mebibytes_refused : mapping (2 ^ 24 - 1) = some (18, 31) ∧
    mapping (2 ^ 24) = some (18, 0) ∧ neededSize (10 * 2 ^ 20) 8 ≤ 2 ^ 24 ∧
    (∃ heap heap', (new fun _ => 0).init 4096 (2 ^ 24) = some heap ∧
      heap.malloc (10 * 2 ^ 20) 8 = some (0, heap')) ∧
    neededSize 1 8 ≤ 33 ∧ (new fun _ => 0).init 4096 33 = none := by
  have hgo : (((new fun _ => 0).init 4096 (2 ^ 24)).any fun heap =>
      (heap.malloc (10 * 2 ^ 20) 8).any fun r => decide (r.1 = 0)) = true := by decide +kernel
  simp only [Option.any_eq_true, decide_eq_true_eq] at hgo
  obtain ⟨heap, hinit, ⟨_, heap'⟩, hr, rfl⟩ := hgo
  have hnone : ((new fun _ => 0).init 4096 33).isNone = true := by decide +kernel
  exact ⟨by decide +kernel, by decide +kernel, by decide +kernel, ⟨heap, heap', hinit, hr⟩,
    by decide +kernel, Option.isNone_iff_eq_none.mp hnone⟩

end YontiOs.Tlsf
