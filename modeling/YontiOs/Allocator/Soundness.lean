import YontiOs.Allocator.Client

/-!
# Allocator/Soundness — the heap's representation, and what clients may rely on

`HeapOk` is the representation invariant in the code's own terms: header words read by walking the
heap, links read by following pointers, bits read from the bitmaps.  It holds in every state a run
reaches (`heapOk_of_run`), and no request in such a run panics.  `run_allocations_sound` is the
clients' side: what is live is aligned, inside the heap, and overlaps nothing of anyone else's.
-/

namespace YontiOs.Tlsf

open TlsfAllocator DList

variable {H n a : ℕ} {s s' : Sys} {m : Mem} {bs : List Block} {L : ℕ × ℕ → List ℕ} {p b : Block}
  {al : Alloc} {op : Op}

/-! ## The representation -/

/-- Walking the headers from an address by `size()` meets those of `l`, and stops exactly at `e`. -/
def Walk (m : Mem) : ℕ → List ℕ → ℕ → Prop
  | a, [], e => a = e
  | a, x :: l, e => x = a ∧ a < e ∧ Walk m (a + (header m a).size) l e

/-- **The representation invariant**: the block headers `l`, the free lists `L`. -/
structure HeapOk (s : TlsfAllocator) (l : List ℕ) (L : ℕ × ℕ → List ℕ) : Prop where
  /-- The headers tile the heap. -/
  tiles : Walk s.mem s.heapStart l s.heapEnd
  sizes : ∀ a ∈ l, (header s.mem a).size % 8 = 0 ∧ 32 ≤ (header s.mem a).size
  /-- Every header, the sentinel included, describes its predecessor. -/
  tags : (l ++ [s.heapEnd]).IsChain fun a b =>
    (header s.mem b).prevPhysSize.toNat = (header s.mem a).size ∧
      (header s.mem b).prevIsFree = (header s.mem a).isFree
  first : (header s.mem s.heapStart).prevIsFree = false
  coalesced : l.IsChain fun a b =>
    ¬ ((header s.mem a).isFree = true ∧ (header s.mem b).isFree = true)
  /-- A free block is once on the list of its class, and on no other. -/
  freeListed : ∀ a ∈ l, (header s.mem a).isFree = true →
    ∃ f k, mapping (header s.mem a).size = some (f, k) ∧ (L (f, k)).count a = 1 ∧
      ∀ f' k', (f', k') ≠ (f, k) → a ∉ L (f', k')
  usedUnlisted : ∀ a ∈ l, (header s.mem a).isFree = false → ∀ f k, a ∉ L (f, k)
  members : ∀ f k, ∀ a ∈ L (f, k), a ∈ l
  /-- The lists are doubly linked, from the heads the allocator keeps. -/
  linked : ∀ f k, s.freeLists f k = (L (f, k)).head? ∧
    Linked (nextOf s.mem) (prevOf s.mem) none (L (f, k))
  range : ∀ f k, L (f, k) ≠ [] → f < flCount ∧ k < slCount
  slBit : ∀ f k, (s.slBitmaps f).getLsbD k = true ↔ L (f, k) ≠ []
  flBit : ∀ f, s.flBitmap.getLsbD f = true ↔ s.slBitmaps f ≠ 0

/-- The header of a placed block. -/
theorem Tagged.header_place (h : Tagged m a p bs) (hbs : Sized bs) (hlt : total bs < 2 ^ 32) {x : ℕ}
    (hx : (x, b) ∈ place a bs) :
    (header m x).size = b.size ∧ (header m x).isFree = b.free := by
  obtain ⟨xs, ys, rfl, rfl⟩ := exists_split_of_mem_place hx
  obtain ⟨hmod, -⟩ := (sized_cons.mp (sized_append.mp hbs).2).1
  rw [total_append, total_cons] at hlt
  rw [h.header_middle]
  exact ⟨size_tagged (by omega) (by omega), isFree_tagged (by omega)⟩

/-- A tagged list is walked. -/
theorem Tagged.walk (h : Tagged m a p bs) (hbs : Sized bs) (hlt : total bs < 2 ^ 32) :
    Walk m a ((place a bs).map Prod.fst) (a + total bs) := by
  induction bs generalizing a p with
  | nil => rfl
  | cons b bs ih =>
    obtain ⟨hsz, hbs'⟩ := sized_cons.mp hbs
    refine ⟨rfl, by rw [total_cons]; omega, ?_⟩
    rw [(h.header_place hbs hlt List.mem_cons_self).1, total_cons, ← add_assoc]
    rw [total_cons] at hlt
    exact ih h.2 hbs' (by omega)

/-- There is only one walk. -/
theorem Tagged.walk_unique (h : Tagged m a p bs) (hbs : Sized bs) (hlt : total bs < 2 ^ 32)
    {l : List ℕ} (hl : Walk m a l (a + total bs)) : l = (place a bs).map Prod.fst := by
  induction bs generalizing a p l with
  | nil =>
    cases l with
    | nil => rfl
    | cons x l => exact absurd hl.2.1 (by simp)
  | cons b bs ih =>
    obtain ⟨hsz, hbs'⟩ := sized_cons.mp hbs
    have hhead := (h.header_place hbs hlt List.mem_cons_self).1
    rw [total_cons] at hl hlt
    cases l with
    | nil =>
      have : a = a + (b.size + total bs) := hl
      omega
    | cons x l =>
      obtain ⟨rfl, -, hl⟩ := hl
      rw [hhead, ← add_assoc] at hl
      rw [ih h.2 hbs' (by omega) hl]
      rfl

/-- Each header of a tagged list, the sentinel included, describes the one before it. -/
theorem Tagged.chain (h : Tagged m a p (bs ++ [sentinel])) (hbs : Sized bs)
    (hlt : total bs < 2 ^ 32) :
    ((place a bs).map Prod.fst ++ [a + total bs]).IsChain fun x y =>
      (header m y).prevPhysSize.toNat = (header m x).size ∧
        (header m y).prevIsFree = (header m x).isFree := by
  induction bs generalizing a p with
  | nil => exact List.isChain_singleton _
  | cons b bs ih =>
    obtain ⟨hsz, hbs'⟩ := sized_cons.mp hbs
    rw [total_cons] at hlt
    have hown := (Tagged.header_place (tagged_append.mp h).1 hbs (by rw [total_cons]; exact hlt)
      List.mem_cons_self)
    have ih := ih h.2 hbs' (by omega)
    rw [total_cons, ← add_assoc, place_cons, List.map_cons, List.cons_append]
    -- the next header is the next block's or the sentinel
    cases bs with
    | nil =>
      refine List.isChain_cons_cons.mpr ⟨?_, ih⟩
      have hnext := h.2.1
      simp only [total_nil, add_zero]
      rw [hnext, hown.1, hown.2]
      exact ⟨prevPhysSize_tagged (by omega), prevIsFree_tagged rfl⟩
    | cons c bs =>
      refine List.isChain_cons_cons.mpr ⟨?_, ih⟩
      have hnext := h.2.1
      have hc := (sized_cons.mp hbs').1.1
      rw [hnext, hown.1, hown.2]
      exact ⟨prevPhysSize_tagged (by omega), prevIsFree_tagged (by omega)⟩

/-- The blocks' headers say that no two neighbours are free. -/
theorem Coalesced.headers (h : Coalesced bs)
    (hhead : ∀ {x b}, (x, b) ∈ place a bs → (header m x).isFree = b.free) :
    ((place a bs).map Prod.fst).IsChain fun x y =>
      ¬ ((header m x).isFree = true ∧ (header m y).isFree = true) := by
  induction bs generalizing a with
  | nil => exact List.isChain_nil
  | cons b bs ih =>
    have ih := ih h.tail fun hx => hhead (List.mem_cons_of_mem _ hx)
    cases bs with
    | nil => exact List.isChain_singleton _
    | cons c bs =>
      refine List.isChain_cons_cons.mpr ⟨?_, ih⟩
      rw [hhead (b := b) List.mem_cons_self,
        hhead (b := c) (List.mem_cons_of_mem _ List.mem_cons_self)]
      exact (List.isChain_cons_cons.mp h).1

/-- **A heap at rest is in order.** -/
theorem AtRest.heapOk {s : TlsfAllocator} (h : AtRest H s bs L) :
    HeapOk s ((place H bs).map Prod.fst) L := by
  have hreg := h.hole.region
  have hlt : total bs < 2 ^ 32 := by simpa using hreg.small
  have hback := h.hole.back
  simp only [total_nil, add_zero] at hback
  have hstop : s.heapEnd = H + total bs := by simpa using hreg.stop
  have hbs := h.hole.backSized
  have htag := (tagged_append.mp hback).1
  have hhead : ∀ {x b}, (x, b) ∈ place H bs →
      (header s.mem x).size = b.size ∧ (header s.mem x).isFree = b.free := fun hx =>
    htag.header_place hbs hlt hx
  refine
    { tiles := by rw [hreg.start, hstop]; exact htag.walk hbs hlt
      sizes := fun a ha => ?_
      tags := hstop ▸ hback.chain hbs hlt
      first := ?_
      coalesced := h.coalesced.headers fun hx => (hhead hx).2
      freeListed := fun a ha hfree => ?_
      usedUnlisted := fun a ha hused f k hmem => ?_
      members := fun f k a ha => ?_
      linked := fun f k => ⟨h.hole.index.roots.head f k, h.hole.index.threads.table.linked (f, k)⟩
      range := h.hole.index.roots.range
      slBit := h.hole.index.roots.slBit
      flBit := h.hole.index.roots.flBit }
  · obtain ⟨⟨x, b⟩, hx, rfl⟩ := List.mem_map.mp ha
    rw [(hhead hx).1]
    exact hbs b (place_bounds hx).1
  · have hnext := h.hole.header_next
    have hmod := h.hole.next_mod
    simp only [total_nil, add_zero] at hnext
    rw [hreg.start, hnext]
    exact prevIsFree_tagged hmod
  · obtain ⟨⟨x, ⟨n, fr⟩⟩, hx, rfl⟩ := List.mem_map.mp ha
    obtain ⟨hsz, hfr⟩ := hhead hx
    obtain rfl : fr = true := hfr.symm.trans hfree
    have hpos := (hbs _ (place_bounds hx).1).2
    have hle := (place_bounds hx).2
    dsimp only at hpos hle hsz
    obtain ⟨f, k, hm⟩ := mapping_isSome (n := n) (by omega) (by omega)
    have hmem := h.mem_list_iff.mpr ⟨n, hx, hm⟩
    refine ⟨f, k, hsz ▸ hm, List.count_eq_one_of_mem (h.hole.index.threads.table.nodup (f, k)) hmem,
      fun f' k' hne hmem' => hne (h.hole.index.threads.table.unique hmem hmem')⟩
  · obtain ⟨⟨x, b⟩, hx, rfl⟩ := List.mem_map.mp ha
    obtain ⟨n, hn, -⟩ := h.mem_list_iff.mp hmem
    rw [(hhead hn).2] at hused
    cases hused
  · obtain ⟨n, hn, -⟩ := h.mem_list_iff.mp ha
    exact List.mem_map.mpr ⟨_, hn, rfl⟩

/-! ## Runs with small alignments -/

/-- Requests whose alignment the header already grants; any live pointer may be freed. -/
abbrev Sys.SmallAligned : Sys → Op → Prop :=
  Sys.Allows (fun size align => align.isPowerOfTwo ∧ align ≤ 8 ∧ size ≤ 2 ^ 58) fun _ => True

/-- With small alignments alone, every live pointer stands right behind its header. -/
theorem behind_of_smallAligned : Behind H
    (fun size align => align.isPowerOfTwo ∧ align ≤ 8 ∧ size ≤ 2 ^ 58) fun _ => True :=
  behind_of_align_le fun _ hask _ => hask.2.1

/-- **No panic**: a legal step of bounded size returns. -/
theorem Sys.Inv.exists_exec (h : s.Inv H bs L) (hH : H + total bs ≤ 2 ^ 63) (hl : s.Legal op)
    (hb : ∀ size align, op = .malloc size align →
      align.isPowerOfTwo ∧ size + max align 8 ≤ 2 ^ 58 + 8) : ∃ s', s.exec op = some s' := by
  cases op with
  | malloc size align =>
    obtain ⟨hal, hsize⟩ := hb size align rfl
    obtain ⟨⟨ptr, heap⟩, hr⟩ := exists_malloc h.rest hal hsize hH
    simp only [Sys.exec, hr, Option.bind_eq_bind, Option.bind_some]
    split_ifs <;> exact ⟨_, rfl⟩
  | free ptr =>
    obtain ⟨al, hal, rfl, hbehind⟩ := hl
    obtain ⟨s', -, -, he, -⟩ := exec_free_inv h hal hbehind
    exact ⟨s', he⟩
  | store addr byte => exact ⟨_, rfl⟩

/-- **The representation invariant holds in every reachable state, and no request panics.** -/
theorem heapOk_of_run (mem : Mem) (h0 : H ≠ 0) (h8 : H % 8 = 0) (hn : n % 8 = 0) (h32 : 32 ≤ n)
    (hsmall : n < 2 ^ 32) (hfits : H + n ≤ 2 ^ 63) :
    ∃ heap, (new mem).init H n = some heap ∧
      ∀ ops s, Run Sys.exec Sys.SmallAligned ⟨heap, []⟩ ops s →
        (∃ l L, HeapOk s.heap l L) ∧ s.heap.heapStart = H ∧ s.heap.heapEnd = H + n ∧
          ∀ op, s.SmallAligned op → ∃ s', s.exec op = some s' := by
  obtain ⟨heap, hinit, hfresh⟩ :=
    init_inv mem (Nat.pos_of_ne_zero h0) h8 hn h32 hsmall (by omega : H + n < 2 ^ 64)
  refine ⟨heap, hinit, fun ops s hrun => ?_⟩
  have hs := run_serves behind_of_smallAligned hrun ⟨hfresh, fun _ h => nomatch h⟩
  have hlegal : ∀ {op}, s.SmallAligned op → s.Legal op := hs.legal behind_of_smallAligned
  obtain ⟨⟨bs, L, hinv, rfl⟩, -⟩ := hs
  have hreg := hinv.rest.hole.region
  refine ⟨⟨_, L, hinv.rest.heapOk⟩, hreg.start, by simpa using hreg.stop, fun op hok => ?_⟩
  refine hinv.exists_exec hfits (hlegal hok) ?_
  rintro size align rfl
  exact ⟨hok.1, by have := hok.2; omega⟩

theorem heapOk_of_run_kilobyte :
    ∃ heap, (new fun _ => 0xcc).init 4096 1024 = some heap ∧
      ∀ ops s, Run Sys.exec Sys.SmallAligned ⟨heap, []⟩ ops s →
        (∃ l L, HeapOk s.heap l L) ∧ s.heap.heapStart = 4096 ∧ s.heap.heapEnd = 4096 + 1024 ∧
          ∀ op, s.SmallAligned op → ∃ s', s.exec op = some s' :=
  heapOk_of_run (fun _ => 0xcc) (by decide) (by decide) (by decide) (by decide) (by decide)
    (by decide)

/-! ## What clients may rely on -/

/-- Requests of any size and of any alignment that is a power of two; only small-aligned allocations
are freed. -/
abbrev Sys.SmallFrees : Sys → Op → Prop :=
  Sys.Allows (fun _ align => align.isPowerOfTwo) fun al => al.align ≤ 8

/-- Requests of any alignment; only small-aligned allocations are freed. -/
abbrev Sys.AnyAligned : Sys → Op → Prop :=
  Sys.Allows (fun size align => align.isPowerOfTwo ∧ size + align ≤ 2 ^ 58) fun al => al.align ≤ 8

/-- Where only small-aligned allocations are freed, it does not matter what is asked for. -/
theorem behind_of_smallFrees {ask : ℕ → ℕ → Prop} : Behind H ask fun al => al.align ≤ 8 :=
  behind_of_align_le fun _ _ hgive => hgive

/-- Two ranges do not meet. -/
def Clear (p n a k : ℕ) : Prop := p + n ≤ a ∨ a + k ≤ p

/-- **A sound allocation**: aligned, inside the heap, and clear of every header and every free
block; the headers are those met when walking the heap. -/
structure Alloc.Sound (al : Alloc) (s : TlsfAllocator) : Prop where
  aligned : al.ptr % al.align = 0
  inside : s.heapStart ≤ al.ptr ∧ al.ptr + al.size ≤ s.heapEnd
  clear : ∃ l, Walk s.mem s.heapStart l s.heapEnd ∧
    (∀ a ∈ l ++ [s.heapEnd], Clear al.ptr al.size a headerSize) ∧
    ∀ a ∈ l, (header s.mem a).isFree = true → Clear al.ptr al.size a (header s.mem a).size

/-- A live allocation of a power-of-two alignment is sound. -/
theorem Sys.Inv.sound (h : s.Inv H bs L) (hal : al ∈ s.live) (hpow : al.align.isPowerOfTwo) :
    al.Sound s.heap := by
  obtain ⟨b, hb, hfit⟩ := h.fits al hal
  have hok := h.rest.heapOk
  have hreg := h.rest.hole.region
  have hstop : s.heap.heapEnd = H + total bs := by simpa using hreg.stop
  have hlt : total bs < 2 ^ 32 := by simpa using hreg.small
  have hback := h.rest.hole.back
  simp only [total_nil, add_zero] at hback
  have hge := hfit.ge
  have hle := hfit.le
  have hbd := (place_bounds hb).2
  refine ⟨?_, ⟨?_, ?_⟩, _, hok.tiles, fun a ha => ?_, fun a ha hfree => ?_⟩
  · refine Nat.mod_eq_zero_of_dvd (dvd_trans ?_ hfit.dvd)
    obtain ⟨j, hj⟩ := hpow
    rcases le_total al.align 8 with h8 | h8
    · rw [max_eq_right h8, hj, show 8 = 2 ^ 3 from rfl]
      exact Nat.pow_dvd_pow 2 ((Nat.pow_le_pow_iff_right (by decide : 1 < 2)).mp (by omega))
    · rw [max_eq_left h8]
  · rw [hreg.start]
    omega
  · omega
  · rcases List.mem_append.mp ha with ha | ha
    · obtain ⟨⟨y, c⟩, hy, rfl⟩ := List.mem_map.mp ha
      have hc := (h.rest.hole.backSized c (place_bounds hy).1).2
      simp only [Clear, headerSize]
      by_cases hne : al.block = y
      · omega
      · rcases hfit.separate hb hy hne with hs | hs <;> omega
    · rw [List.mem_singleton.mp ha, hstop]
      exact .inl (by omega)
  · obtain ⟨⟨y, c⟩, hy, rfl⟩ := List.mem_map.mp ha
    obtain ⟨hsz, hfr⟩ := (tagged_append.mp hback).1.header_place h.rest.hole.backSized hlt hy
    dsimp only at hfree
    rw [hsz]
    have hne : al.block ≠ y := by
      rintro rfl
      have hused := hfit.used
      rcases place_separate hb hy with ⟨-, rfl⟩ | hs | hs
      · rw [hfr, hused] at hfree
        cases hfree
      · omega
      · have := (h.rest.hole.backSized c (place_bounds hy).1).2
        omega
    rcases hfit.separate hb hy hne with hs | hs
    · exact .inl hs
    · exact .inr (by omega)

/-- Live allocations do not meet. -/
theorem Sys.Inv.pairwise_clear (h : s.Inv H bs L) :
    s.live.Pairwise fun al al' => Clear al.ptr al.size al'.ptr al'.size := by
  refine List.Pairwise.imp_of_mem ?_ (List.pairwise_map.mp h.distinct)
  intro al al' hal hal' hne
  obtain ⟨b, hb, hfit⟩ := h.fits al hal
  obtain ⟨b', hb', hfit'⟩ := h.fits al' hal'
  have h1 := hfit.ge
  have h2 := hfit'.ge
  have h3 := hfit'.le
  rcases hfit.separate hb hb' hne with hs | hs
  · exact .inl (by omega)
  · exact .inr (by omega)

/-- **Allocations are sound for their clients**, in every state a run reaches and for as long as
they live; no request of such a run panics, and every pointer that is not null becomes a live
allocation. -/
theorem run_allocations_sound (mem : Mem) (h0 : H ≠ 0) (h8 : H % 8 = 0) (hn : n % 8 = 0)
    (h32 : 32 ≤ n) (hsmall : n < 2 ^ 32) (hfits : H + n ≤ 2 ^ 63) :
    ∃ heap, (new mem).init H n = some heap ∧
      ∀ ops s, Run Sys.exec Sys.AnyAligned ⟨heap, []⟩ ops s →
        s.heap.heapStart = H ∧ s.heap.heapEnd = H + n ∧ (∀ al ∈ s.live, al.Sound s.heap) ∧
          (s.live.Pairwise fun al al' => Clear al.ptr al.size al'.ptr al'.size) ∧
          (∀ op, s.AnyAligned op → ∃ s', s.exec op = some s') ∧
          ∀ size align p heap', s.heap.malloc size align = some (p, heap') → p ≠ 0 →
            ∃ a, s.exec (.malloc size align) = some ⟨heap', ⟨p, size, align, a⟩ :: s.live⟩ := by
  obtain ⟨heap, hinit, hfresh⟩ :=
    init_inv mem (Nat.pos_of_ne_zero h0) h8 hn h32 hsmall (by omega : H + n < 2 ^ 64)
  refine ⟨heap, hinit, fun ops s hrun => ?_⟩
  have hs := run_serves behind_of_smallFrees hrun ⟨hfresh, fun _ h => nomatch h⟩
  have hlegal : ∀ {op}, s.AnyAligned op → s.Legal op := hs.legal behind_of_smallFrees
  obtain ⟨⟨bs, L, hinv, rfl⟩, hask⟩ := hs
  have hreg := hinv.rest.hole.region
  refine ⟨hreg.start, by simpa using hreg.stop, fun al hal => hinv.sound hal (hask al hal).1,
    hinv.pairwise_clear, fun op hok => ?_, fun size align p heap' hm hp => ?_⟩
  · refine hinv.exists_exec hfits (hlegal hok) ?_
    rintro size align rfl
    exact ⟨hok.1, by have := hok.2; omega⟩
  · simp only [Sys.exec, hm, Option.bind_eq_bind, Option.bind_some, if_neg hp]
    exact ⟨_, rfl⟩

theorem run_allocations_sound_kilobyte :
    ∃ heap, (new fun _ => 0xcc).init 4096 1024 = some heap ∧
      ∀ ops s, Run Sys.exec Sys.AnyAligned ⟨heap, []⟩ ops s →
        s.heap.heapStart = 4096 ∧ s.heap.heapEnd = 4096 + 1024 ∧ (∀ al ∈ s.live, al.Sound s.heap) ∧
          (s.live.Pairwise fun al al' => Clear al.ptr al.size al'.ptr al'.size) ∧
          (∀ op, s.AnyAligned op → ∃ s', s.exec op = some s') ∧
          ∀ size align p heap', s.heap.malloc size align = some (p, heap') → p ≠ 0 →
            ∃ a, s.exec (.malloc size align) = some ⟨heap', ⟨p, size, align, a⟩ :: s.live⟩ :=
  run_allocations_sound (fun _ => 0xcc) (by decide) (by decide) (by decide) (by decide) (by decide)
    (by decide)

end YontiOs.Tlsf
