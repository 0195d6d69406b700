import YontiOs.Allocator.LinkedList
import YontiOs.Allocator.Malloc
import YontiOs.Machinery.SList

/-!
# Allocator/FreeRegions — the free list in memory

`Lists s free` reads the allocator's list out of memory: the nodes from the head on are at the
starts of `free`, and each has the size of its region.  As long as the regions are apart and can
hold a node each, `add_free_region` puts a region in front (`Lists.addFreeRegion`) and `find_region`
takes off the first one that fits (`findRegion_cases`).
-/

namespace YontiOs.LinkedList

open LinkedListAllocator Extent

variable {m m' : Mem} {a b x size align ptr fuel : ℕ} {v : ListNode} {s s' : LinkedListAllocator}
  {r : Extent} {free xs ys us vs : List Extent} {layout : Layout}

/-! ## Nodes -/

theorem node_congr (hag : ∀ x, a ≤ x → x < a + 16 → m' x = m x) : node m' a = node m a := by
  rw [node, node, Mem.readLE_congr fun x h1 h2 => hag x h1 (by omega),
    Mem.readLE_congr fun x h1 h2 => hag x (by omega) (by omega)]

theorem putNode_of_notMem (hx : x < a ∨ a + 16 ≤ x) : putNode m a v x = m x := by
  rw [putNode, Mem.writeLE_of_notMem (by omega), Mem.writeLE_of_notMem (by omega)]

theorem putNext_of_notMem {l : Option ℕ} (hx : x < a ∨ a + 16 ≤ x) : putNext m a l x = m x :=
  Mem.writeLE_of_notMem (by omega)

theorem node_putNode_self (hsize : v.size < 2 ^ 64) (hnext : Tlsf.Storable v.next) :
    node (putNode m a v) a = v := by
  rw [node, putNode, Mem.readLE_writeLE_of_disjoint (by omega), Mem.readLE_writeLE_self,
    Mem.readLE_writeLE_self, Tlsf.pointer_getD hnext, Nat.mod_eq_of_lt (by simpa using hsize)]

theorem node_putNext_self {l : Option ℕ} (hl : Tlsf.Storable l) :
    node (putNext m a l) a = { node m a with next := l } := by
  rw [node, putNext, Mem.readLE_writeLE_of_disjoint (by omega), Mem.readLE_writeLE_self,
    Tlsf.pointer_getD hl, node]

theorem storable_next : Tlsf.Storable (node m a).next := by
  simp only [node]
  exact Tlsf.storable_pointer

/-- A region that can be on the list. -/
structure HoldsNode (r : Extent) : Prop where
  aligned : r.start % 8 = 0
  large : 16 ≤ r.size
  pos : 0 < r.start
  addr : r.start < 2 ^ 64
  size : r.size < 2 ^ 64

/-- A link set in one region's node is not seen in another's. -/
theorem node_putNext_of_apart {q : Extent} {l : Option ℕ} (hr : HoldsNode r) (hq : HoldsNode q)
    (hap : Apart r q) : node (putNext m r.start l) q.start = node m q.start := by
  have hr16 := hr.large
  have hq16 := hq.large
  simp only [Apart, stop] at hap
  exact node_congr fun x h1 h2 => putNext_of_notMem (by omega)

/-! ## The list -/

/-- The nodes from the head on are those of the regions `free`. -/
structure Lists (s : LinkedListAllocator) (free : List Extent) : Prop where
  chain : SList.Chain (fun a => s.next (some a)) s.head (free.map start)
  region : ∀ r ∈ free, s.region r.start = r

instance : Decidable (Lists s free) :=
  decidable_of_iff (SList.Chain (fun a => s.next (some a)) s.head (free.map start) ∧
    ∀ r ∈ free, s.region r.start = r) ⟨fun h => ⟨h.1, h.2⟩, fun h => ⟨h.chain, h.region⟩⟩

/-- The list of an allocator is determined. -/
theorem Lists.unique (h : Lists s xs) (h' : Lists s ys) : xs = ys := by
  have hstart := h.chain.unique h'.chain
  have hmap : ∀ {zs}, Lists s zs → zs = (zs.map start).map s.region := by
    intro zs hz
    rw [List.map_map]
    exact (List.map_id _).symm.trans (List.map_congr_left fun r hr => (hz.region r hr).symm)
  rw [hmap h, hmap h', hstart]

/-- The place behind the regions `xs`. -/
def place (xs : List Extent) : Option ℕ := (xs.map start).getLast?

theorem Lists.next_place (h : Lists s (xs ++ ys)) : s.next (place xs) = (ys.map start).head? := by
  have hchain := h.chain
  rcases xs.eq_nil_or_concat with rfl | ⟨us, r, rfl⟩
  · exact hchain.head_eq
  · simp only [List.concat_eq_append, List.map_append, List.append_assoc, List.map_cons,
      List.cons_append, List.nil_append] at hchain
    simpa [place] using hchain.behind.head_eq

/-- **The walk passes over regions that do not fit.** -/
theorem Lists.findFrom_skip (h : Lists s (xs ++ us ++ ys))
    (hno : ∀ u ∈ us, allocFromRegion u size align = some none) (fuel : ℕ) :
    s.findFrom size align (us.length + fuel) (place xs) =
      s.findFrom size align fuel (place (xs ++ us)) := by
  induction us generalizing xs with
  | nil => simp
  | cons u us ih =>
    have hnext := (List.append_assoc xs (u :: us) ys ▸ h).next_place
    rw [List.cons_append, List.map_cons, List.head?_cons] at hnext
    have hu : s.region u.start = u := h.region u (by simp)
    have hplace : place (xs ++ [u]) = some u.start := by simp [place]
    rw [List.length_cons, show us.length + 1 + fuel = us.length + fuel + 1 by omega, findFrom,
      hnext]
    simp only [hu, hno u List.mem_cons_self, Option.bind_eq_bind, Option.bind_some]
    rw [← hplace, ih (show Lists s (xs ++ [u] ++ us ++ ys) by simpa using h) fun w hw =>
      hno w (List.mem_cons_of_mem _ hw)]
    simp

/-- The list reads the nodes of its regions alone. -/
theorem Lists.congr (h : Lists s free) (hhead : s'.head = s.head)
    (hag : ∀ r ∈ free, node s'.mem r.start = node s.mem r.start) : Lists s' free := by
  refine ⟨?_, fun r hr => ?_⟩
  · rw [hhead]
    refine h.chain.congr fun b hb => ?_
    obtain ⟨r, hr, rfl⟩ := List.mem_map.mp hb
    simp only [next, hag r hr]
  · have := h.region r hr
    rwa [LinkedListAllocator.region, hag r hr]

theorem Lists.unlinkFront (h : Lists s (r :: ys)) (hhead : s'.head = (node s.mem r.start).next)
    (hag : ∀ q ∈ ys, node s'.mem q.start = node s.mem q.start) : Lists s' ys := by
  refine ⟨?_, fun q hq => ?_⟩
  · rw [hhead]
    refine h.chain.unlinkFront fun b hb => ?_
    obtain ⟨q, hq, rfl⟩ := List.mem_map.mp hb
    simp only [next, hag q hq]
  · have := h.region q (List.mem_cons_of_mem _ hq)
    rwa [LinkedListAllocator.region, hag q hq]

theorem Lists.unlinkAfter {p : Extent} (h : Lists s (us ++ p :: r :: ys))
    (hhead : s'.head = s.head)
    (hp : node s'.mem p.start = { node s.mem p.start with next := (node s.mem r.start).next })
    (hag : ∀ q ∈ us ++ ys, node s'.mem q.start = node s.mem q.start) :
    Lists s' (us ++ p :: ys) := by
  refine ⟨?_, fun q hq => ?_⟩
  · have hchain := h.chain
    rw [List.map_append, List.map_cons, List.map_cons] at hchain
    rw [hhead, List.map_append, List.map_cons]
    refine hchain.unlinkAfter (by simp only [next, hp]) fun b hb => ?_
    rw [← List.map_append] at hb
    obtain ⟨q, hq, rfl⟩ := List.mem_map.mp hb
    simp only [next, hag q hq]
  · have hreg := h.region q (by simp only [List.mem_append, List.mem_cons] at hq ⊢; tauto)
    rw [LinkedListAllocator.region] at hreg ⊢
    by_cases hqp : q = p
    · subst hqp
      rwa [hp]
    · rwa [hag q (by simpa [hqp] using hq)]

/-- **Taking a region off the list**: the place before it gets its link. -/
theorem Lists.takeOff {s₁ s₂ : LinkedListAllocator} (h : Lists s (xs ++ r :: ys))
    (hok : ∀ q ∈ xs ++ r :: ys, HoldsNode q) (hap : (xs ++ r :: ys).Pairwise Apart)
    (hs₁ : s₁ = s.setNext none (some r.start))
    (hs₂ : s₂ = s₁.setNext (s.next (some r.start)) (place xs)) :
    s₁.next (place xs) = some r.start ∧ Lists s₂ (xs ++ ys) ∧ s₂.region r.start = r := by
  obtain ⟨hapart, hrest⟩ := pairwise_middle hap
  have hr := hok r (by simp)
  have hsize := h.region r (by simp)
  have hnext := h.next_place
  rw [List.map_cons, List.head?_cons] at hnext
  have hhead : s₁.head = s.head := by rw [hs₁, setNext]
  have hself : node s₁.mem r.start = { node s.mem r.start with next := none } := by
    rw [hs₁, setNext, node_putNext_self Tlsf.storable_none]
  have hother : ∀ q ∈ xs ++ ys, HoldsNode q ∧ node s₁.mem q.start = node s.mem q.start := by
    intro q hq
    have hq' := hok q (by simp only [List.mem_append, List.mem_cons] at hq ⊢; tauto)
    rw [hs₁, setNext]
    exact ⟨hq', node_putNext_of_apart hr hq' (hapart q hq)⟩
  rw [LinkedListAllocator.region] at hsize ⊢
  rcases xs.eq_nil_or_concat with rfl | ⟨us, p, rfl⟩
  · simp only [place, List.map_nil, List.getLast?_nil, next, setNext] at hnext hs₂ ⊢
    subst hs₂
    refine ⟨hhead.trans hnext, h.unlinkFront rfl fun q hq => (hother q hq).2, ?_⟩
    rw [hself]
    exact hsize
  · rw [List.concat_eq_append] at *
    simp only [place, List.map_append, List.map_cons, List.map_nil, List.getLast?_concat, next,
      setNext] at hnext hs₂ ⊢
    subst hs₂
    obtain ⟨hp, hpnode⟩ := hother p (by simp)
    rw [List.append_assoc, List.cons_append, List.nil_append] at h hrest
    have hpapart := (pairwise_middle hrest).1
    refine ⟨by rw [hpnode, hnext], ?_, ?_⟩
    · rw [List.append_assoc]
      refine h.unlinkAfter hhead ?_ fun q hq => ?_
      · rw [node_putNext_self storable_next, hpnode]
      · obtain ⟨hq', hnode⟩ := hother q (by simp only [List.mem_append] at hq ⊢; tauto)
        rw [node_putNext_of_apart hp hq' (hpapart q hq), hnode]
    · have hpr : Apart p r := (hapart p (by simp)).symm
      rw [node_putNext_of_apart hp hr hpr, hself]
      exact hsize

/-! ## First fit -/

/-- **`find_region` takes the first region that fits**, if any does; it panics where
`alloc_from_region` does. -/
theorem Lists.findRegion_cases (h : Lists s free) (hok : ∀ q ∈ free, HoldsNode q)
    (hap : free.Pairwise Apart) (hlen : free.length < 2 ^ 64) (size align : ℕ) :
    s.findRegion size align = some (none, s) ∨
      (∃ us r vs ptr s', free = us ++ r :: vs ∧ allocFromRegion r size align = some (some ptr) ∧
        s.findRegion size align = some (some (r.start, ptr), s') ∧ Lists s' (us ++ vs) ∧
        s'.region r.start = r) ∨
      s.findRegion size align = none ∧ ∃ r ∈ free, allocFromRegion r size align = none := by
  rw [findRegion]
  cases hfind : free.find? fun r => decide (allocFromRegion r size align ≠ some none) with
  | none =>
    have hno : ∀ r ∈ free, allocFromRegion r size align = some none := by
      simpa [List.find?_eq_none] using hfind
    obtain ⟨k, hk⟩ := Nat.exists_eq_add_of_lt hlen
    have hskip := (show Lists s ([] ++ free ++ []) by simpa using h).findFrom_skip hno (k + 1)
    have hnext := (show Lists s (free ++ []) by simpa using h).next_place
    left
    rw [hk, add_assoc]
    refine hskip.trans ?_
    rw [List.nil_append, findFrom, hnext]
    rfl
  | some r =>
    obtain ⟨hr, us, vs, rfl, hus⟩ := List.find?_eq_some_iff_append.mp hfind
    have hno : ∀ u ∈ us, allocFromRegion u size align = some none := by simpa using hus
    have hreg := h.region r (by simp)
    obtain ⟨k, hk⟩ := Nat.exists_eq_add_of_lt
      (show us.length < 2 ^ 64 by rw [List.length_append] at hlen; omega)
    have hskip := (show Lists s ([] ++ us ++ r :: vs) by simpa using h).findFrom_skip hno (k + 1)
    have hnext := h.next_place
    right
    rw [hk, add_assoc, show (none : Option ℕ) = place [] from rfl, hskip, List.nil_append, findFrom,
      hnext, List.map_cons, List.head?_cons]
    simp only [hreg]
    cases hfit : allocFromRegion r size align with
    | none => exact .inr ⟨rfl, r, by simp, hfit⟩
    | some fit =>
      cases fit with
      | none => simp [hfit] at hr
      | some ptr =>
        obtain ⟨htaken, hlists, hsize⟩ := h.takeOff hok hap rfl rfl
        refine .inl ⟨us, r, vs, ptr, _, rfl, hfit, ?_, hlists, hsize⟩
        simp only [Option.bind_eq_bind, Option.bind_some, htaken]

/-- **A fit**: the aligned start, with the allocation inside the region and nothing behind it, or
room for a node. -/
theorem allocFromRegion_eq_some (h : allocFromRegion r size align = some (some ptr)) :
    alignUp r.start align = some ptr ∧ ptr + size ≤ r.stop ∧ r.stop < 2 ^ 64 ∧
      (ptr + size = r.stop ∨ ptr + size + 16 ≤ r.stop) := by
  simp only [allocFromRegion, Option.bind_eq_bind, Option.bind_eq_some_iff] at h
  obtain ⟨allocStart, hstart, h⟩ := h
  cases hend : Word.add allocStart size with
  | none => simp [hend] at h
  | some allocEnd =>
    simp only [hend, Option.bind_eq_some_iff] at h
    obtain ⟨regionEnd, hregion, h⟩ := h
    obtain ⟨rfl, -⟩ := Word.add_eq_some hend
    obtain ⟨rfl, hlt⟩ := Word.add_eq_some hregion
    split_ifs at h with hsmall hexcess
    · simp at h
    · simp at h
    · obtain rfl := Option.some.inj (Option.some.inj h)
      rw [nodeSize] at hexcess
      refine ⟨hstart, ?_, hlt, ?_⟩ <;> simp only [stop] <;> omega

/-- `alloc_from_region` panics only on an overflow. -/
theorem exists_allocFromRegion (hal : align.isPowerOfTwo) (hsum : r.start + align < 2 ^ 64)
    (hstop : r.stop < 2 ^ 64) : ∃ fit, allocFromRegion r size align = some fit := by
  obtain ⟨j, rfl⟩ := hal
  rw [allocFromRegion, alignUp_two_pow hsum, Option.bind_eq_bind, Option.bind_some]
  cases Word.add ((r.start + 2 ^ j - 1) / 2 ^ j * 2 ^ j) size with
  | none => exact ⟨_, rfl⟩
  | some allocEnd =>
    simp only [Word.add_of_lt hstop, Option.bind_some]
    split_ifs <;> exact ⟨_, rfl⟩

/-! ## The edits of `alloc` and `dealloc` -/

theorem addFreeRegion_eq_some (h : s.addFreeRegion a size = some s') :
    a % 8 = 0 ∧ 16 ≤ size ∧ a < 2 ^ 64 ∧ s' = ⟨Tlsf.pointer a, putNode s.mem a ⟨size, s.head⟩⟩ := by
  simp only [LinkedListAllocator.addFreeRegion, Option.bind_eq_bind, Option.bind_eq_some_iff,
    Option.ite_none_right_eq_some, Option.some.injEq] at h
  obtain ⟨_, halign, ⟨rfl, hsize⟩, rfl⟩ := h
  obtain ⟨-, hsum, hdvd, -, -⟩ := alignUp_eq_some halign
  exact ⟨Nat.mod_eq_zero_of_dvd hdvd, hsize, by omega, rfl⟩

theorem Lists.storable_head (h : Lists s free) (hok : ∀ q ∈ free, HoldsNode q) :
    Tlsf.Storable s.head := by
  rw [h.chain.head_eq]
  intro p hp
  obtain ⟨q, hq, rfl⟩ := List.mem_map.mp (List.mem_of_head? hp)
  exact ⟨(hok q hq).pos, (hok q hq).addr⟩

/-- **`add_free_region` puts a region in front.** -/
theorem Lists.addFreeRegion (h : Lists s free) (hok : ∀ q ∈ free, HoldsNode q) (hr : HoldsNode r)
    (hap : ∀ q ∈ free, Apart r q) (hadd : s.addFreeRegion r.start r.size = some s') :
    Lists s' (r :: free) := by
  obtain ⟨-, -, -, rfl⟩ := addFreeRegion_eq_some hadd
  have hself : node (putNode s.mem r.start ⟨r.size, s.head⟩) r.start = ⟨r.size, s.head⟩ :=
    node_putNode_self hr.size (h.storable_head hok)
  have hother : ∀ q ∈ free,
      node (putNode s.mem r.start ⟨r.size, s.head⟩) q.start = node s.mem q.start := by
    intro q hq
    have hq16 := (hok q hq).large
    have hr16 := hr.large
    have hapart := hap q hq
    simp only [Apart, stop] at hapart
    exact node_congr fun x h1 h2 => putNode_of_notMem (by omega)
  have hhead : Tlsf.pointer r.start = some r.start := if_neg hr.pos.ne'
  refine ⟨?_, List.forall_mem_cons.mpr ⟨?_, fun q hq => ?_⟩⟩
  · rw [hhead]
    refine h.chain.pushFront (by simp only [next, hself]) fun b hb => ?_
    obtain ⟨q, hq, rfl⟩ := List.mem_map.mp hb
    simp only [next, hother q hq]
  · rw [LinkedListAllocator.region, hself]
  · rw [LinkedListAllocator.region, hother q hq]
    exact h.region q hq

/-- The assertions of `add_free_region` hold for a multiple of 8 and room for a node. -/
theorem exists_addFreeRegion (h8 : a % 8 = 0) (h16 : 16 ≤ size) (htop : a + 8 < 2 ^ 64) :
    ∃ s', s.addFreeRegion a size = some s' := by
  have halign : alignUp a 8 = some a := by
    rw [show (8 : ℕ) = 2 ^ 3 from rfl, alignUp_two_pow (by omega)]
    congr 1
    omega
  rw [LinkedListAllocator.addFreeRegion, show nodeAlign = 8 from rfl, halign, Option.bind_eq_bind,
    Option.bind_some, if_pos ⟨rfl, h16⟩]
  exact ⟨_, rfl⟩

theorem isPowerOfTwo_max_eight (l : Layout) : (max l.align 8).isPowerOfTwo := by
  rcases max_choice l.align 8 with hmax | hmax <;> rw [hmax]
  · exact l.pow2
  · exact ⟨3, rfl⟩

theorem align_dvd_max_eight (l : Layout) : l.align ∣ max l.align 8 := by
  rcases max_choice l.align 8 with hmax | hmax <;> rw [hmax]
  obtain ⟨j, hj⟩ := l.pow2
  have hj3 : j ≤ 3 := by
    rw [← Nat.pow_le_pow_iff_right (show 1 < 2 by decide), ← hj]
    omega
  exact hj ▸ (show 8 = 2 ^ 3 by rfl) ▸ Nat.pow_dvd_pow 2 hj3

/-- **What `size_align` returns**: room for the layout and for a node. -/
theorem sizeAlign_eq_some (h : sizeAlign layout = some (size, align)) :
    layout.size ≤ size ∧ 16 ≤ size ∧ size % 8 = 0 ∧ size < 2 ^ 64 ∧ align ≤ 2 ^ 63 ∧
      align = max layout.align 8 := by
  simp only [sizeAlign, Option.bind_eq_bind, Option.bind_eq_some_iff, Option.some.injEq,
    Prod.mk.injEq, nodeSize, nodeAlign] at h
  obtain ⟨l, hl, rfl, hal⟩ := h
  obtain ⟨hsize, halign⟩ := Layout.fromSizeAlign_eq_some hl
  obtain rfl : l.align = align := hal
  have hle := l.le_padToAlign
  have hfits := l.padToAlign.fits
  have h8 : 8 ∣ l.padToAlign.size := by
    obtain ⟨j, hj⟩ := l.pow2
    have h8 : 8 ≤ 2 ^ j := by omega
    exact (hj ▸ eight_dvd_two_pow h8).trans l.dvd_padToAlign
  have := l.fits
  omega

/-- Allocations start at multiples of 8. -/
theorem mod_eight_of_alignUp (hsize : sizeAlign layout = some (size, align))
    (hptr : alignUp a align = some ptr) : ptr % 8 = 0 := by
  obtain ⟨-, -, -, -, -, halign⟩ := sizeAlign_eq_some hsize
  obtain ⟨⟨j, rfl⟩, -, hdvd, -, -⟩ := alignUp_eq_some hptr
  have := (eight_dvd_two_pow (j := j) (by omega)).trans hdvd
  omega

/-- `size_align` fails only where rounding up to 8 would pass `isize::MAX`. -/
theorem sizeAlign_isSome_iff : (sizeAlign layout).isSome ↔ layout.size ≤ 2 ^ 63 - 8 := by
  have hfits := layout.fits
  have hiff : (sizeAlign layout).isSome ↔
      (Layout.fromSizeAlign layout.size (max layout.align 8)).isSome := by
    rw [sizeAlign, Layout.alignTo, nodeAlign]
    cases Layout.fromSizeAlign layout.size (max layout.align 8) <;> simp
  rw [hiff, Layout.fromSizeAlign_isSome_iff]
  simp only [isPowerOfTwo_max_eight, true_and]
  omega

/-- What an allocation that ends at `e` leaves of a region. -/
def leftover (r : Extent) (e : ℕ) : List Extent := if e < r.stop then [⟨e, r.stop - e⟩] else []

theorem total_leftover {e : ℕ} (h : e ≤ r.stop) : total (leftover r e) = r.stop - e := by
  rw [leftover]
  split_ifs with hlt
  · rfl
  · rw [total_nil]
    omega

/-- An allocation and what it leaves are packed into the region. -/
theorem packed_leftover (hge : r.start ≤ ptr) (hle : ptr + size ≤ r.stop) :
    Packed r.start r.stop (⟨ptr, size⟩ :: leftover r (ptr + size)) := by
  have hmem : ∀ q ∈ leftover r (ptr + size), q = ⟨ptr + size, r.stop - (ptr + size)⟩ := by
    intro q hq
    rw [leftover] at hq
    split_ifs at hq
    · exact List.mem_singleton.mp hq
    · cases hq
  refine ⟨List.forall_mem_cons.mpr ⟨⟨hge, hle⟩, fun q hq => ?_⟩,
    List.pairwise_cons.mpr ⟨fun q hq => ?_, ?_⟩⟩
  · rw [hmem q hq]
    simp only [stop] at *
    omega
  · rw [hmem q hq]
    exact .inl le_rfl
  · rw [leftover]
    split_ifs
    · exact List.pairwise_singleton _ _
    · exact List.Pairwise.nil

/-- What is left of a region holds a node. -/
theorem holdsNode_leftover (hsize : sizeAlign layout = some (size, align))
    (hfit : allocFromRegion r size align = some (some ptr)) (hlt : ptr + size < r.stop) :
    HoldsNode ⟨ptr + size, r.stop - (ptr + size)⟩ := by
  obtain ⟨hptr, hle, htop, hexcess⟩ := allocFromRegion_eq_some hfit
  obtain ⟨-, h16, hmod, -, -, -⟩ := sizeAlign_eq_some hsize
  have hp8 := mod_eight_of_alignUp hsize hptr
  constructor <;> simp only <;> omega

/-- `alloc` with a region to take. -/
theorem alloc_of_findRegion {s₁ : LinkedListAllocator}
    (hsize : sizeAlign layout = some (size, align))
    (hfit : allocFromRegion r size align = some (some ptr))
    (hfind : s.findRegion size align = some (some (r.start, ptr), s₁))
    (hreg : s₁.region r.start = r) : s.alloc layout =
      if ptr + size < r.stop then
        (s₁.addFreeRegion (ptr + size) (r.stop - (ptr + size))).map (ptr, ·)
      else some (ptr, s₁) := by
  obtain ⟨-, hle, htop, -⟩ := allocFromRegion_eq_some hfit
  have hend : Word.add ptr size = some (ptr + size) := Word.add_of_lt (by omega)
  have hstop : Word.add r.start r.size = some r.stop := Word.add_of_lt htop
  have hrest : Word.sub r.stop (ptr + size) = some (r.stop - (ptr + size)) := Word.sub_of_le hle
  simp only [alloc, hsize, hfind, hreg, hend, hstop, hrest, Option.bind_eq_bind, Option.bind_some,
    Nat.sub_pos_iff_lt]
  split_ifs <;> simp only [Option.map_eq_bind, Function.comp_def]

/-- The start of the region that `alloc(layout)` takes, if it takes one. -/
def LinkedListAllocator.chosenRegion (s : LinkedListAllocator) (layout : Layout) : Option ℕ := do
  let (size, align) ← sizeAlign layout
  let (found, _) ← s.findRegion size align
  found.map Prod.fst

/-- How far the next multiple of `align` is. -/
def offAlign (a align : ℕ) : ℕ := (align - a % align) % align

theorem offAlign_eq_zero_iff (hpos : 0 < align) : offAlign a align = 0 ↔ a % align = 0 := by
  have hlt := Nat.mod_lt a hpos
  rw [offAlign]
  constructor
  · intro h
    by_contra hne
    rw [Nat.mod_eq_of_lt (by omega)] at h
    omega
  · intro h
    rw [h, Nat.sub_zero, Nat.mod_self]

/-- `align_up` skips that far. -/
theorem sub_of_alignUp (h : alignUp a align = some ptr) : ptr - a = offAlign a align := by
  obtain ⟨⟨j, rfl⟩, -, ⟨c, rfl⟩, hge, hlt⟩ := alignUp_eq_some h
  have hpos : 0 < 2 ^ j := Nat.two_pow_pos j
  have hdm := Nat.div_add_mod a (2 ^ j)
  have hmod := Nat.mod_lt a hpos
  rw [offAlign]
  generalize 2 ^ j = al at *
  generalize a / al = q at *
  rcases Nat.eq_zero_or_pos (a % al) with h0 | h0
  · -- the address is a multiple already
    obtain rfl : c = q := by
      have h1 : al * q ≤ al * c := by omega
      have h2 : al * c < al * (q + 1) := by rw [mul_add, mul_one]; omega
      have := Nat.le_of_mul_le_mul_left h1 hpos
      have := Nat.lt_of_mul_lt_mul_left h2
      omega
    rw [h0, Nat.sub_zero, Nat.mod_self]
    omega
  · obtain rfl : c = q + 1 := by
      have h1 : al * q < al * c := by omega
      have h2 : al * c < al * (q + 2) := by rw [mul_add]; omega
      have := Nat.lt_of_mul_lt_mul_left h1
      have := Nat.lt_of_mul_lt_mul_left h2
      omega
    rw [Nat.mod_eq_of_lt (by omega), mul_add, mul_one]
    omega

/-- The bytes between the start of the region that `alloc(layout)` takes and the pointer it
returns. -/
def LinkedListAllocator.gap (s : LinkedListAllocator) (layout : Layout) : ℕ :=
  (s.chosenRegion layout).elim 0 fun a => offAlign a (max layout.align 8)

section Alloc

variable (h : Lists s free) (hok : ∀ q ∈ free, HoldsNode q) (hap : free.Pairwise Apart)
  (hlen : free.length < 2 ^ 64)
include h hok hap hlen

/-- **What `alloc` does to the free regions**: nothing, or it takes one that fits and puts what it
leaves in front. -/
theorem Lists.alloc_cases (ha : s.alloc layout = some (ptr, s')) :
    (ptr = 0 ∧ s' = s ∧ s.gap layout = 0) ∨
    ∃ us r vs size align, free = us ++ r :: vs ∧ sizeAlign layout = some (size, align) ∧
      alignUp r.start align = some ptr ∧ ptr + size ≤ r.stop ∧ s.gap layout = ptr - r.start ∧
      (∀ q ∈ leftover r (ptr + size), HoldsNode q) ∧
      Lists s' (leftover r (ptr + size) ++ (us ++ vs)) := by
  have hret := ha
  simp only [alloc, Option.bind_eq_bind, Option.bind_eq_some_iff] at hret
  obtain ⟨⟨size, align⟩, hsize, ⟨found, s₁⟩, hfind, hret⟩ := hret
  dsimp only at hfind hret
  rcases h.findRegion_cases hok hap hlen size align with
    hnone | ⟨us, r, vs, p, s₂, rfl, hfit, hsome, hlists, hreg⟩ | ⟨hpanic, -⟩
  · obtain ⟨rfl, rfl⟩ := Prod.mk.inj (Option.some.inj (hfind.symm.trans hnone))
    obtain ⟨rfl, rfl⟩ := Prod.mk.inj (Option.some.inj hret)
    refine .inl ⟨rfl, rfl, ?_⟩
    simp only [gap, chosenRegion, hsize, hnone, Option.bind_eq_bind, Option.bind_some,
      Option.map_none, Option.elim_none]
  · obtain ⟨hptr, hle, -, -⟩ := allocFromRegion_eq_some hfit
    have hgap : s.gap layout = p - r.start := by
      obtain ⟨-, -, -, -, -, rfl⟩ := sizeAlign_eq_some hsize
      simp only [gap, chosenRegion, hsize, hsome, Option.bind_eq_bind, Option.bind_some,
        Option.map_some, Option.elim_some, sub_of_alignUp hptr]
    rw [alloc_of_findRegion hsize hfit hsome hreg] at ha
    by_cases hlt : p + size < r.stop
    · have hnode := holdsNode_leftover hsize hfit hlt
      have hleft : leftover r (p + size) = [⟨p + size, r.stop - (p + size)⟩] := if_pos hlt
      rw [if_pos hlt, Option.map_eq_some_iff] at ha
      obtain ⟨s₃, hadd, ha⟩ := ha
      obtain ⟨rfl, rfl⟩ := Prod.mk.inj ha
      refine .inr ⟨us, r, vs, size, align, rfl, hsize, hptr, hle, hgap, ?_, ?_⟩ <;> rw [hleft]
      · exact List.forall_mem_singleton.mpr hnode
      · refine hlists.addFreeRegion (fun q hq => hok q ?_) hnode (fun q hq => ?_) hadd
        · simp only [List.mem_append, List.mem_cons] at hq ⊢
          tauto
        · have hge := (alignUp_eq_some hptr).2.2.2.1
          refine ((pairwise_middle hap).1 q hq).mono ⟨?_, ?_⟩ ⟨le_rfl, le_rfl⟩ <;>
            simp only [stop] at * <;> omega
    · have hleft : leftover r (p + size) = [] := if_neg hlt
      rw [if_neg hlt] at ha
      obtain ⟨rfl, rfl⟩ := Prod.mk.inj (Option.some.inj ha)
      refine .inr ⟨us, r, vs, size, align, rfl, hsize, hptr, hle, hgap, ?_, ?_⟩ <;> rw [hleft]
      · exact fun q hq => nomatch hq
      · exact hlists
  · rw [hpanic] at hfind
    cases hfind

/-- **`alloc` returns**, while the regions are below `2 ^ 63`. -/
theorem Lists.exists_alloc (htop : ∀ q ∈ free, q.stop ≤ 2 ^ 63) (hsize : layout.size ≤ 2 ^ 63 - 8) :
    ∃ ptr s', s.alloc layout = some (ptr, s') := by
  obtain ⟨⟨size, align⟩, hs⟩ := Option.isSome_iff_exists.mp (sizeAlign_isSome_iff.mpr hsize)
  obtain ⟨-, -, -, -, hal63, halign⟩ := sizeAlign_eq_some hs
  have hpow : align.isPowerOfTwo := halign ▸ isPowerOfTwo_max_eight layout
  rcases h.findRegion_cases hok hap hlen size align with
    hnone | ⟨us, r, vs, p, s₁, rfl, hfit, hsome, -, hreg⟩ | ⟨-, r, hr, hpanic⟩
  · refine ⟨0, s, ?_⟩
    simp only [alloc, hs, hnone, Option.bind_eq_bind, Option.bind_some]
  · rw [alloc_of_findRegion hs hfit hsome hreg]
    split_ifs with hlt
    · have hr63 := htop r (by simp)
      have hnode := holdsNode_leftover hs hfit hlt
      obtain ⟨s₂, hadd⟩ := exists_addFreeRegion (s := s₁) hnode.aligned hnode.large
        (by simp only; omega)
      exact ⟨p, s₂, by rw [hadd]; rfl⟩
    · exact ⟨p, s₁, rfl⟩
  · have hr63 := htop r hr
    have hr16 := (hok r hr).large
    obtain ⟨fit, hfit⟩ : ∃ fit, allocFromRegion r size align = some fit :=
      exists_allocFromRegion hpow (by simp only [stop] at hr63; omega) (by omega)
    rw [hfit] at hpanic
    cases hpanic

end Alloc

end YontiOs.LinkedList
