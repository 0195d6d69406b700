import YontiOs.Memory.Buddy
import YontiOs.Machinery.ListTable

/-!
# Memory/FrameLists — the bitmap as a set, the free lists as lists

`bit` reads the bitmap; the range operations set or clear a whole range of it.  `Lists s L` says
that the allocator's heads and the links in the free frames hold, for each order `k`, the list `L
k`.  `insert_free`, `pop_free` and `remove_free` are then the edits of a table of lists, together
with the bits they write.
-/

namespace YontiOs.Buddy

open AlignedRange BuddyAllocator

variable {s s' s'' : BuddyAllocator} {L : ℕ → List ℕ} {l : List ℕ} {i j k x y w start count : ℕ}
  {b : Bool} {m' : Mem}

/-! ## The bitmap -/

/-- The bitmap bit of a frame. -/
def BuddyAllocator.bit (s : BuddyAllocator) (x : ℕ) : Bool := (s.bitmap (x / 64)).getLsbD (x % 64)

/-- A bitmap write: the frames of one range get the bit `b`, and nothing else changes. -/
structure Marks (s s' : BuddyAllocator) (start count : ℕ) (b : Bool) : Prop where
  bit : ∀ y, s'.bit y = if start ≤ y ∧ y < start + count then b else s.bit y
  rest : s' = { s with bitmap := s'.bitmap }

theorem word_lt (hx : x < maxTrackedFrames) : x / 64 < bitmapU64Len := by
  simp only [bitmapU64Len, maxTrackedFrames] at *
  omega

theorem isFree_eq (hx : x < maxTrackedFrames) : s.isFree x = some (s.bit x) := by
  refine (if_pos (word_lt hx)).trans (congrArg some (Bool.eq_iff_iff.mpr (bne_iff_ne.trans ?_)))
  exact Word.and_one_shiftLeft_ne_zero (Nat.mod_lt x (by decide))

/-- Writing one word of the bitmap so that one bit of it becomes `b`. -/
theorem marks_update {w : BitVec 64}
    (hw : ∀ j, w.getLsbD j = if j = x % 64 then b else (s.bitmap (x / 64)).getLsbD j) :
    Marks s { s with bitmap := Function.update s.bitmap (x / 64) w } x 1 b := by
  refine ⟨fun y => ?_, rfl⟩
  simp only [bit]
  by_cases hdiv : y / 64 = x / 64
  · rw [hdiv, Function.update_self, hw, ← hdiv]
    by_cases hmod : y % 64 = x % 64
    · rw [if_pos hmod, if_pos (by omega)]
    · rw [if_neg hmod, if_neg (by omega)]
  · rw [Function.update_of_ne hdiv, if_neg (by omega)]

theorem markFree_spec (hx : x < maxTrackedFrames) :
    ∃ s', s.markFree x = some s' ∧ Marks s s' x 1 true := by
  refine ⟨_, if_pos (word_lt hx), marks_update fun j => ?_⟩
  have h := Word.getLsbD_setBit (x := s.bitmap (x / 64)) (j := j)
    (Nat.mod_lt x (show 0 < 64 by decide))
  rw [Word.setBit] at h
  rw [h]
  split_ifs with hj <;> simp [hj]

theorem markAllocated_spec (hx : x < maxTrackedFrames) :
    ∃ s', s.markAllocated x = some s' ∧ Marks s s' x 1 false := by
  refine ⟨_, if_pos (word_lt hx), marks_update fun j => ?_⟩
  have h := Word.getLsbD_clearBit (x := s.bitmap (x / 64)) (j := j)
    (Nat.mod_lt x (show 0 < 64 by decide))
  rw [Word.clearBit] at h
  rw [h]
  split_ifs with hj <;> simp [hj]

/-- A loop that marks one frame after the other marks the range. -/
theorem marks_range {f : BuddyAllocator → ℕ → Option BuddyAllocator}
    (hf : ∀ s x, x < maxTrackedFrames → ∃ s', f s x = some s' ∧ Marks s s' x 1 b)
    (h : start + count ≤ maxTrackedFrames) :
    ∃ s', (List.range count).foldlM (fun s i => f s (start + i)) s = some s' ∧
      Marks s s' start count b := by
  induction count with
  | zero => exact ⟨s, rfl, fun y => by rw [if_neg (by omega)], rfl⟩
  | succ n ih =>
    obtain ⟨s₁, hs₁, hm₁⟩ := ih (by omega)
    obtain ⟨s₂, hs₂, hm₂⟩ := hf s₁ (start + n) (by omega)
    refine ⟨s₂, by simp [List.range_succ, List.foldlM_append, hs₁, hs₂], fun y => ?_, ?_⟩
    · rw [hm₂.bit, hm₁.bit]
      split_ifs <;> first | rfl | omega
    · rw [hm₂.rest, hm₁.rest]

theorem markRangeFree_spec (h : start + count ≤ maxTrackedFrames) :
    ∃ s', s.markRangeFree start count = some s' ∧ Marks s s' start count true :=
  marks_range (fun _ _ hx => markFree_spec hx) h

theorem markRangeAllocated_spec (h : start + count ≤ maxTrackedFrames) :
    ∃ s', s.markRangeAllocated start count = some s' ∧ Marks s s' start count false :=
  marks_range (fun _ _ hx => markAllocated_spec hx) h

/-- A test of all elements that returns on each. -/
theorem allM_eq_some {α : Type*} {f : α → Option Bool} {p : α → Bool} {l : List α}
    (h : ∀ a ∈ l, f a = some (p a)) : l.allM f = some (l.all p) := by
  induction l with
  | nil => rfl
  | cons a l ih =>
    rw [List.allM, h a List.mem_cons_self, List.all_cons]
    cases hp : p a
    · rfl
    · exact ih fun c hc => h c (List.mem_cons_of_mem _ hc)

/-- **`is_range_free` reads the bitmap**: whether the range is tracked and all its bits are set. -/
theorem isRangeFree_eq (start count : ℕ) (ht : s.totalFrames ≤ maxTrackedFrames)
    (hlt : start + count < 2 ^ 64) : ∃ r, s.isRangeFree start count = some r ∧
      (r = true ↔ start + count ≤ s.totalFrames ∧
        ∀ y, start ≤ y → y < start + count → s.bit y = true) := by
  simp only [isRangeFree, Word.add_of_lt hlt, Option.bind_eq_bind, Option.bind_some]
  split_ifs with hle
  · exact ⟨false, rfl, by simp; omega⟩
  · refine ⟨_, allM_eq_some (p := fun i => s.bit (start + i)) fun i hi => isFree_eq ?_, ?_⟩
    · have := List.mem_range.mp hi
      omega
    · simp only [List.all_eq_true, List.mem_range]
      constructor
      · intro h
        refine ⟨by omega, fun y h1 h2 => ?_⟩
        have := h (y - start) (by omega)
        rwa [Nat.add_sub_cancel' h1] at this
      · exact fun h i hi => h.2 _ (by omega) (by omega)

/-! ## Addresses and links -/

/-- Where frame `i` is mapped. -/
def BuddyAllocator.addr (s : BuddyAllocator) (i : ℕ) : ℕ :=
  s.basePhys + i * frameSize + s.physMemOffset

theorem idxToPhys_eq (h : s.basePhys + i * frameSize < 2 ^ 64) :
    s.idxToPhys i = some (s.basePhys + i * frameSize) := by
  simp only [idxToPhys, Word.mul_of_lt (show i * frameSize < 2 ^ 64 by omega), Option.bind_eq_bind,
    Option.bind_some, Word.add_of_lt h]

theorem idxToPhys_eq_some (h : s.idxToPhys i = some x) : x = s.basePhys + i * frameSize := by
  simp only [idxToPhys, Option.bind_eq_bind, Option.bind_eq_some_iff] at h
  obtain ⟨q, hq, hx⟩ := h
  obtain ⟨rfl, -⟩ := Word.mul_eq_some hq
  exact (Word.add_eq_some hx).1

theorem frameIdxToPtr_eq (h : s.addr i < 2 ^ 64) : s.frameIdxToPtr i = some (s.addr i) := by
  rw [addr] at h ⊢
  simp only [frameIdxToPtr, idxToPhys_eq (show s.basePhys + i * frameSize < 2 ^ 64 by omega),
    Option.bind_eq_bind, Option.bind_some, Word.add_of_lt h]

/-- The links of frame `i` are at an address that exists, and that is aligned. -/
def BuddyAllocator.Mapped (s : BuddyAllocator) (i : ℕ) : Prop := s.addr i < 2 ^ 64 ∧ 8 ∣ s.addr i

theorem linksAt_eq (h : s.Mapped i) : s.linksAt i = some (s.addr i) := by
  simp only [linksAt, frameIdxToPtr_eq h.1, deref_of_dvd h.2, Option.bind_eq_bind, Option.bind_some]

/-- Only the links of a mapped frame can be reached. -/
theorem mapped_of_linksAt (h : s.linksAt i = some x) : s.Mapped i := by
  simp only [linksAt, frameIdxToPtr, Option.bind_eq_bind, Option.bind_eq_some_iff] at h
  obtain ⟨q, ⟨p, hp, hq⟩, _, hderef, -⟩ := h
  obtain rfl := idxToPhys_eq_some hp
  obtain ⟨rfl, hlt⟩ := Word.add_eq_some hq
  exact ⟨hlt, deref_eq_some.mp hderef⟩

/-- Frames are a multiple of 8 apart, so one is aligned if another is. -/
theorem dvd_addr_iff : 8 ∣ s.addr i ↔ 8 ∣ s.basePhys + s.physMemOffset := by
  simp only [addr, frameSize]
  omega

theorem isAlignedForOrder_iff : isAlignedForOrder i k = true ↔ 2 ^ k ∣ i := by
  rw [isAlignedForOrder, Nat.and_two_pow_sub_one_eq_mod, beq_iff_eq, Nat.dvd_iff_mod_eq_zero]

/-- The index the forward link of a frame names. -/
def BuddyAllocator.nextOf (s : BuddyAllocator) (i : ℕ) : Option ℕ := link (nextAt s.mem (s.addr i))

/-- The index the backward link of a frame names. -/
def BuddyAllocator.prevOf (s : BuddyAllocator) (i : ℕ) : Option ℕ := link (prevAt s.mem (s.addr i))

theorem link_of_lt (h : w < nullLink) : link w = some w := if_neg h.ne

theorem link_nullLink : link nullLink = none := if_pos rfl

theorem link_eq_some (h : link w = some i) : i = w ∧ w ≠ nullLink := by
  rw [link] at h
  split_ifs at h with hw
  exact ⟨(Option.some.inj h).symm, hw⟩

theorem link_eq_none (h : link w = none) : w = nullLink := by
  rw [link] at h
  split_ifs at h with hw
  exact hw

/-- A link word that encodes an index or none. -/
theorem link_getD {o : Option ℕ} (h : ∀ j ∈ o, j < nullLink) : link (o.getD nullLink) = o := by
  cases o with
  | none => exact link_nullLink
  | some j => exact link_of_lt (h j rfl)

/-- Different frames are mapped a frame apart. -/
theorem addr_disjoint (s : BuddyAllocator) (h : i ≠ j) :
    s.addr i + 16 ≤ s.addr j ∨ s.addr j + 16 ≤ s.addr i := by
  simp only [addr, frameSize]
  omega

@[simp] theorem addr_setNext : (s.setNext x w).addr i = s.addr i := rfl

@[simp] theorem addr_setPrev : (s.setPrev x w).addr i = s.addr i := rfl

theorem mem_setNext : (s.setNext x w).mem = s.mem.writeLE x 8 w := rfl

theorem mem_setPrev : (s.setPrev x w).mem = s.mem.writeLE (x + 8) 8 w := rfl

theorem nextOf_setNext (hx : x = s.addr j) (hw : w < 2 ^ 64) :
    (s.setNext x w).nextOf i = if i = j then link w else s.nextOf i := by
  simp only [nextOf, nextAt, addr_setNext, mem_setNext, hx]
  split_ifs with hij
  · rw [hij, Mem.readLE_writeLE_self, Nat.mod_eq_of_lt (hw.trans_eq (by norm_num))]
  · rw [Mem.readLE_writeLE_of_disjoint (by have := addr_disjoint s hij; omega)]

theorem prevOf_setPrev (hx : x = s.addr j) (hw : w < 2 ^ 64) :
    (s.setPrev x w).prevOf i = if i = j then link w else s.prevOf i := by
  simp only [prevOf, prevAt, addr_setPrev, mem_setPrev, hx]
  split_ifs with hij
  · rw [hij, Mem.readLE_writeLE_self, Nat.mod_eq_of_lt (hw.trans_eq (by norm_num))]
  · rw [Mem.readLE_writeLE_of_disjoint (by have := addr_disjoint s hij; omega)]

theorem prevOf_setNext (hx : x = s.addr j) : (s.setNext x w).prevOf i = s.prevOf i := by
  simp only [prevOf, prevAt, addr_setNext, mem_setNext, hx]
  by_cases hij : i = j
  · rw [hij, Mem.readLE_writeLE_of_disjoint (.inl le_rfl)]
  · rw [Mem.readLE_writeLE_of_disjoint (by have := addr_disjoint s hij; omega)]

theorem nextOf_setPrev (hx : x = s.addr j) : (s.setPrev x w).nextOf i = s.nextOf i := by
  simp only [nextOf, nextAt, addr_setPrev, mem_setPrev, hx]
  by_cases hij : i = j
  · rw [hij, Mem.readLE_writeLE_of_disjoint (.inr le_rfl)]
  · rw [Mem.readLE_writeLE_of_disjoint (by have := addr_disjoint s hij; omega)]

/-! ## What the list functions write -/

/-- What the list functions leave alone. -/
structure Keeps (s s' : BuddyAllocator) : Prop where
  total : s'.totalFrames = s.totalFrames
  base : s'.basePhys = s.basePhys
  offset : s'.physMemOffset = s.physMemOffset
  count : s'.allocatedCount = s.allocatedCount

theorem Keeps.refl (s : BuddyAllocator) : Keeps s s := ⟨rfl, rfl, rfl, rfl⟩

theorem Keeps.trans (h : Keeps s s') (h' : Keeps s' s'') : Keeps s s'' :=
  ⟨h'.total.trans h.total, h'.base.trans h.base, h'.offset.trans h.offset, h'.count.trans h.count⟩

theorem Keeps.addr_eq (h : Keeps s s') : s'.addr i = s.addr i := by
  simp only [addr, h.base, h.offset]

theorem Keeps.mapped_iff (h : Keeps s s') : s'.Mapped i ↔ s.Mapped i := by
  rw [Mapped, Mapped, h.addr_eq]

theorem keeps_setList {o : Option ℕ} : Keeps s (s.setList k o) := ⟨rfl, rfl, rfl, rfl⟩

theorem keeps_setNext : Keeps s (s.setNext x w) := ⟨rfl, rfl, rfl, rfl⟩

theorem keeps_setPrev : Keeps s (s.setPrev x w) := ⟨rfl, rfl, rfl, rfl⟩

theorem Marks.keeps (h : Marks s s' start count b) : Keeps s s' := by
  rw [h.rest]
  exact ⟨rfl, rfl, rfl, rfl⟩

theorem Marks.freeLists (h : Marks s s' start count b) : s'.freeLists = s.freeLists := by
  rw [h.rest]

theorem Marks.nextOf (h : Marks s s' start count b) : s'.nextOf = s.nextOf := by rw [h.rest]; rfl

theorem Marks.prevOf (h : Marks s s' start count b) : s'.prevOf = s.prevOf := by rw [h.rest]; rfl

theorem nextAt_lt : nextAt s.mem x < 2 ^ 64 := (Mem.readLE_lt _ _ _).trans_eq (by norm_num)

theorem prevAt_lt : prevAt s.mem x < 2 ^ 64 := (Mem.readLE_lt _ _ _).trans_eq (by norm_num)

/-- An insertion maps the frame. -/
theorem mapped_of_insertFree (hle : i + 2 ^ k ≤ maxTrackedFrames)
    (h : s.insertFree i k = some s') : s.Mapped i := by
  obtain ⟨s₁, hs₁, hm⟩ := markRangeFree_spec (s := s) hle
  simp only [insertFree, Option.bind_eq_bind, hs₁, Option.bind_some] at h
  split_ifs at h
  obtain ⟨p, hp, -⟩ := Option.bind_eq_some_iff.mp h
  exact hm.keeps.mapped_iff.mp (mapped_of_linksAt hp)

/-- The head, the links and the bits after `insert_free`. -/
theorem insertFree_links (hd : 2 ^ k ∣ i) (hle : i + 2 ^ k ≤ maxTrackedFrames)
    (hi : s.Mapped i) (hold : ∀ j ∈ s.freeLists k, j < nullLink ∧ s.Mapped j) :
    ∃ s', s.insertFree i k = some s' ∧ Keeps s s' ∧
      s'.freeLists = Function.update s.freeLists k (some i) ∧
      (∀ b, s'.nextOf b = if b = i then s.freeLists k else s.nextOf b) ∧
      (∀ b, s'.prevOf b = if s.freeLists k = some b then some i else if b = i then none
        else s.prevOf b) ∧
      ∀ y, s'.bit y = if Has (i, k) y then true else s.bit y := by
  obtain ⟨s₁, hs₁, hm⟩ := markRangeFree_spec (s := s) hle
  have hnull : nullLink < 2 ^ 64 := by decide
  have hilt : i < nullLink := by
    have hpos := Nat.two_pow_pos k
    simp only [nullLink, maxTrackedFrames] at *
    omega
  have hi₁ : s₁.Mapped i := hm.keeps.mapped_iff.mpr hi
  have hw : (s.freeLists k).getD nullLink < 2 ^ 64 := by
    rcases hh : s.freeLists k with _ | j
    · exact hnull
    · exact (hold j hh).1.trans hnull
  simp only [insertFree, if_pos (isAlignedForOrder_iff.mpr hd), hs₁, Option.bind_eq_bind,
    Option.bind_some, linksAt_eq hi₁, hm.freeLists]
  -- the block's own links
  obtain ⟨s₂, hs₂, hk₂, hf₂, hn₂, hp₂, hb₂⟩ : ∃ s₂,
      (s₁.setNext (s₁.addr i) ((s.freeLists k).getD nullLink)).setPrev (s₁.addr i) nullLink = s₂ ∧
      Keeps s s₂ ∧ s₂.freeLists = s.freeLists ∧
      (∀ b, s₂.nextOf b = if b = i then s.freeLists k else s.nextOf b) ∧
      (∀ b, s₂.prevOf b = if b = i then none else s.prevOf b) ∧
      s₂.bitmap = s₁.bitmap := by
    refine ⟨_, rfl, (hm.keeps.trans keeps_setNext).trans keeps_setPrev, hm.freeLists, fun b => ?_,
      fun b => ?_, rfl⟩
    · rw [nextOf_setPrev addr_setNext.symm, nextOf_setNext rfl hw,
        link_getD fun j hj => (hold j hj).1, hm.nextOf]
    · rw [prevOf_setPrev addr_setNext.symm hnull, prevOf_setNext rfl, link_nullLink, hm.prevOf]
  rw [hs₂]
  -- then the old head's link back
  have hbit : ∀ y, s₂.bit y = if Has (i, k) y then true else s.bit y := fun y => by
    rw [bit, hb₂]
    exact hm.bit y
  rcases hh : s.freeLists k with _ | old
  · refine ⟨_, rfl, hk₂.trans keeps_setList, hf₂ ▸ rfl, hh ▸ hn₂, fun b => ?_, hbit⟩
    rw [if_neg (by simp)]
    exact hp₂ b
  · have hold₂ : s₂.Mapped old := hk₂.mapped_iff.mpr (hold old hh).2
    simp only [linksAt_eq hold₂, Option.bind_some]
    refine ⟨_, rfl, (hk₂.trans keeps_setPrev).trans keeps_setList, hf₂ ▸ rfl, fun b => ?_,
      fun b => ?_, hbit⟩
    · exact (nextOf_setPrev rfl).trans (hh ▸ hn₂ b)
    · refine (prevOf_setPrev rfl (hilt.trans hnull)).trans ?_
      rw [link_of_lt hilt, hp₂]
      simp only [Option.some.injEq, eq_comm]

/-- `remove_free` in two halves. -/
theorem removeFree_eq (hi : s.Mapped i) : s.removeFree i k =
    Option.bind (if prevAt s.mem (s.addr i) ≠ nullLink then
        (s.linksAt (prevAt s.mem (s.addr i))).bind fun p =>
          some (s.setNext p (nextAt s.mem (s.addr i)))
      else some (s.setList k (link (nextAt s.mem (s.addr i))))) fun s₁ =>
    if nextAt s.mem (s.addr i) ≠ nullLink then
      (s₁.linksAt (nextAt s.mem (s.addr i))).bind fun n =>
        some (s₁.setPrev n (prevAt s.mem (s.addr i)))
    else some s₁ := by
  simp only [removeFree, linksAt_eq hi, Option.bind_eq_bind, Option.bind_some]
  split_ifs <;> simp [Option.bind_assoc]

/-- The head and the links after `remove_free`. -/
theorem removeFree_links (hi : s.Mapped i) (hnx : ∀ j ∈ s.nextOf i, s.Mapped j)
    (hpv : ∀ j ∈ s.prevOf i, s.Mapped j) :
    ∃ s', s.removeFree i k = some s' ∧ Keeps s s' ∧ s'.bitmap = s.bitmap ∧
      s'.freeLists = (s.prevOf i).elim (Function.update s.freeLists k (s.nextOf i))
        (fun _ => s.freeLists) ∧
      (∀ b, s'.nextOf b = if s.prevOf i = some b then s.nextOf i else s.nextOf b) ∧
      ∀ b, s'.prevOf b = if s.nextOf i = some b then s.prevOf i else s.prevOf b := by
  have hnw : nextAt s.mem (s.addr i) < 2 ^ 64 := nextAt_lt
  have hpw : prevAt s.mem (s.addr i) < 2 ^ 64 := prevAt_lt
  have hnl : link (nextAt s.mem (s.addr i)) = s.nextOf i := rfl
  have hpl : link (prevAt s.mem (s.addr i)) = s.prevOf i := rfl
  rw [removeFree_eq hi]
  generalize nextAt s.mem (s.addr i) = next at *
  generalize prevAt s.mem (s.addr i) = prev at *
  -- first the block before it, or the head
  obtain ⟨s₁, hs₁, hk₁, hb₁, hf₁, hn₁, hp₁⟩ : ∃ s₁,
      (if prev ≠ nullLink then (s.linksAt prev).bind fun p => some (s.setNext p next)
        else some (s.setList k (link next))) = some s₁ ∧ Keeps s s₁ ∧ s₁.bitmap = s.bitmap ∧
      s₁.freeLists = (s.prevOf i).elim (Function.update s.freeLists k (s.nextOf i))
        (fun _ => s.freeLists) ∧
      (∀ b, s₁.nextOf b = if s.prevOf i = some b then s.nextOf i else s.nextOf b) ∧
      ∀ b, s₁.prevOf b = s.prevOf b := by
    rcases hp : s.prevOf i with _ | p
    · rw [if_neg (not_not.mpr (link_eq_none (hpl.trans hp)))]
      refine ⟨_, rfl, ⟨rfl, rfl, rfl, rfl⟩, rfl, by rw [← hnl]; rfl, fun b => ?_, fun b => rfl⟩
      rw [if_neg (by simp)]
      rfl
    · obtain ⟨rfl, hne⟩ := link_eq_some (hpl.trans hp)
      rw [if_pos hne, linksAt_eq (hpv p hp)]
      refine ⟨_, rfl, ⟨rfl, rfl, rfl, rfl⟩, rfl, rfl, fun b => ?_, fun b => prevOf_setNext rfl⟩
      rw [nextOf_setNext rfl hnw, hnl]
      simp only [Option.some.injEq, eq_comm]
  rw [hs₁, Option.bind_some]
  -- then the block after it
  rcases hn : s.nextOf i with _ | n
  · rw [if_neg (not_not.mpr (link_eq_none (hnl.trans hn)))]
    refine ⟨_, rfl, hk₁, hb₁, hn ▸ hf₁, hn ▸ hn₁, fun b => ?_⟩
    rw [if_neg (by simp), hp₁]
  · obtain ⟨rfl, hne⟩ := link_eq_some (hnl.trans hn)
    rw [if_pos hne, linksAt_eq (hk₁.mapped_iff.mpr (hnx n hn))]
    refine ⟨_, rfl, hk₁.trans ⟨rfl, rfl, rfl, rfl⟩, hb₁, hn ▸ hf₁, fun b => ?_, fun b => ?_⟩
    · rw [nextOf_setPrev rfl, hn₁, hn]
    · rw [prevOf_setPrev rfl hpw, hpl, hp₁]
      simp only [Option.some.injEq, eq_comm]

/-- The head, the links and the bits after a `pop_free` that returns a block. -/
theorem popFree_links (hh : s.freeLists k = some i) (hle : i + 2 ^ k ≤ maxTrackedFrames)
    (hi : s.Mapped i) (hnx : ∀ j ∈ s.nextOf i, s.Mapped j) :
    ∃ s', s.popFree k = some (some i, s') ∧ Keeps s s' ∧
      s'.freeLists = Function.update s.freeLists k (s.nextOf i) ∧
      (∀ b, s'.nextOf b = s.nextOf b) ∧
      (∀ b, s'.prevOf b = if s.nextOf i = some b then none else s.prevOf b) ∧
      ∀ y, s'.bit y = if Has (i, k) y then false else s.bit y := by
  have hnl : link (nextAt s.mem (s.addr i)) = s.nextOf i := rfl
  simp only [popFree, hh, linksAt_eq hi, Option.bind_eq_bind, Option.bind_some]
  generalize nextAt s.mem (s.addr i) = next at *
  rcases hn : s.nextOf i with _ | n
  · rw [if_neg (not_not.mpr (link_eq_none (hnl.trans hn)))]
    obtain ⟨s', hs', hm⟩ := markRangeAllocated_spec (s := s.setList k (link next)) hle
    rw [hs', Option.bind_some]
    refine ⟨s', rfl, keeps_setList.trans hm.keeps, ?_, fun b => ?_, fun b => ?_, hm.bit⟩
    · rw [hm.freeLists, ← hn, ← hnl]
      rfl
    · rw [hm.nextOf]
      rfl
    · rw [hm.prevOf, if_neg (by simp)]
      rfl
  · obtain ⟨rfl, hne⟩ := link_eq_some (hnl.trans hn)
    rw [if_pos hne, linksAt_eq (hnx n hn), Option.bind_some]
    obtain ⟨s', hs', hm⟩ := markRangeAllocated_spec
      (s := (s.setPrev (s.addr n) nullLink).setList k (link n)) hle
    rw [hs', Option.bind_some]
    refine ⟨s', rfl, (keeps_setPrev.trans keeps_setList).trans hm.keeps, ?_, fun b => ?_,
      fun b => ?_, hm.bit⟩
    · rw [hm.freeLists, ← hn, ← hnl]
      rfl
    · rw [hm.nextOf]
      exact nextOf_setPrev rfl
    · rw [hm.prevOf]
      refine (prevOf_setPrev rfl (by decide)).trans ?_
      rw [link_nullLink]
      simp only [Option.some.injEq, eq_comm]

/-! ## The lists -/

/-- The `n`-th block met from the head of a list along the forward links. -/
def BuddyAllocator.nodeAt (s : BuddyAllocator) (k : ℕ) : ℕ → Option ℕ
  | 0 => s.freeLists k
  | n + 1 => (s.nodeAt k n).bind s.nextOf

theorem nodeAt_of_none (h : s.freeLists k = none) (n : ℕ) : s.nodeAt k n = none := by
  induction n with
  | zero => exact h
  | succ n ih => rw [nodeAt, ih, Option.bind_none]

/-- **The heads and the links hold the lists `L`**, of tracked and mapped frames. -/
structure Lists (s : BuddyAllocator) (L : ℕ → List ℕ) : Prop where
  head : ∀ k, s.freeLists k = (L k).head?
  table : Table s.nextOf s.prevOf L
  lt : ∀ {i}, Listed L i → i < s.totalFrames
  mapped : ∀ {i}, Listed L i → s.Mapped i
  tracked : s.totalFrames ≤ maxTrackedFrames

namespace Lists

theorem of_marks (h : Lists s L) (hm : Marks s s' start count b) : Lists s' L := by
  rw [hm.rest]
  exact ⟨h.head, h.table, h.lt, h.mapped, h.tracked⟩

/-- Only the two link words of each listed frame matter. -/
theorem congr (h : Lists s L)
    (hag : ∀ i, Listed L i → ∀ x, s.addr i ≤ x → x < s.addr i + 16 → m' x = s.mem x) :
    Lists { s with mem := m' } L where
  head := h.head
  table := h.table.congr fun i hi => by
    constructor
    · exact congrArg link (Mem.readLE_congr (a := s.addr i) fun x h1 h2 =>
        hag i hi x h1 (by omega))
    · exact congrArg link (Mem.readLE_congr (a := s.addr i + 8) fun x h1 h2 =>
        hag i hi x (by omega) (by omega))
  lt := h.lt
  mapped := h.mapped
  tracked := h.tracked

theorem lt_nullLink (h : Lists s L) (hi : Listed L i) : i < nullLink := by
  have h1 := h.lt hi
  have h2 := h.tracked
  simp only [nullLink, maxTrackedFrames] at *
  omega

/-- **`insert_free` pushes.** -/
theorem insertFree (h : Lists s L) (hd : 2 ^ k ∣ i) (hle : i + 2 ^ k ≤ s.totalFrames)
    (hfresh : ¬ Listed L i) (hi : s.Mapped i) :
    ∃ s', s.insertFree i k = some s' ∧ Keeps s s' ∧
      Lists s' (Function.update L k (i :: L k)) ∧
      ∀ y, s'.bit y = if Has (i, k) y then true else s.bit y := by
  have hhead : ∀ j ∈ s.freeLists k, Listed L j := fun j hj =>
    ⟨k, List.mem_of_head? (h.head k ▸ hj)⟩
  obtain ⟨s', hs', hkeep, hf, hn, hp, hb⟩ := insertFree_links hd (hle.trans h.tracked) hi
    fun j hj => ⟨h.lt_nullLink (hhead j hj), h.mapped (hhead j hj)⟩
  have hpos := Nat.two_pow_pos k
  have hne : ∀ b, Listed L b → b ≠ i := fun b hb hbi => hfresh (hbi ▸ hb)
  refine ⟨s', hs', hkeep, ⟨fun l => ?_, h.table.push hfresh ?_ ?_ ?_ ?_ ?_, ?_, ?_, ?_⟩, hb⟩
  · rw [hf]
    by_cases hl : l = k
    · subst hl
      simp
    · rw [Function.update_of_ne hl, Function.update_of_ne hl, h.head]
  · rw [hn, if_pos rfl, h.head]
  · rw [hp, if_neg (show s.freeLists k ≠ some i from fun hh => hfresh (hhead i hh)), if_pos rfl]
  · intro b hb
    rw [hn, if_neg (hne b hb)]
  · intro b hb hnh
    rw [hp, if_neg (h.head k ▸ hnh), if_neg (hne b hb)]
  · intro b hb
    rw [hp, if_pos (h.head k ▸ hb)]
  · intro b hb
    rw [hkeep.total]
    rcases Table.listed_push.mp hb with rfl | hb
    · omega
    · exact h.lt hb
  · intro b hb
    rw [hkeep.mapped_iff]
    rcases Table.listed_push.mp hb with rfl | hb
    · exact hi
    · exact h.mapped hb
  · exact hkeep.total ▸ h.tracked

/-- A list with one entry less is still a list of tracked and mapped frames. -/
theorem of_erase (h : Lists s L) (hkeep : Keeps s s') (hi : i ∈ L k)
    (hhead : ∀ l, s'.freeLists l = (Function.update L k ((L k).erase i) l).head?)
    (hn : ∀ b, Listed L b → s'.nextOf b = if s.prevOf i = some b then s.nextOf i else s.nextOf b)
    (hp : ∀ b, Listed L b → s'.prevOf b = if s.nextOf i = some b then s.prevOf i else s.prevOf b) :
    Lists s' (Function.update L k ((L k).erase i)) where
  head := hhead
  table := h.table.unlink hi hn hp
  lt := fun ⟨l, hl⟩ => hkeep.total ▸ h.lt ⟨l, ((h.table.mem_erase hi).mp hl).1⟩
  mapped := fun ⟨l, hl⟩ =>
    hkeep.mapped_iff.mpr (h.mapped ⟨l, ((h.table.mem_erase hi).mp hl).1⟩)
  tracked := hkeep.total ▸ h.tracked

/-- **`remove_free` unlinks**, when the block is on the list of its order. -/
theorem removeFree (h : Lists s L) (hi : i ∈ L k) :
    ∃ s', s.removeFree i k = some s' ∧ Keeps s s' ∧ s'.bitmap = s.bitmap ∧
      Lists s' (Function.update L k ((L k).erase i)) := by
  obtain ⟨hpv, hnx⟩ := h.table.listed_neighbours hi
  obtain ⟨s', hs', hkeep, hb, hf, hn, hp⟩ := removeFree_links (k := k) (h.mapped ⟨k, hi⟩)
    (fun j hj => h.mapped ⟨k, hnx j hj⟩) (fun j hj => h.mapped ⟨k, hpv j hj⟩)
  refine ⟨s', hs', hkeep, hb, h.of_erase hkeep hi (fun l => ?_) (fun b _ => hn b) fun b _ => hp b⟩
  have herase := h.table.head?_erase hi
  generalize s.prevOf i = prev at hf herase
  generalize s.nextOf i = next at hf herase
  by_cases hl : l = k
  · subst hl
    rw [Function.update_self, herase, hf]
    cases prev
    · exact Function.update_self ..
    · exact h.head l
  · rw [Function.update_of_ne hl, hf, ← h.head l]
    cases prev
    · exact Function.update_of_ne hl ..
    · rfl

/-- Following the links runs through the list. -/
theorem nodeAt_eq (h : Lists s L) (n : ℕ) : s.nodeAt k n = (L k)[n]? := by
  induction n with
  | zero => rw [nodeAt, h.head, List.head?_eq_getElem?]
  | succ n ih =>
    rw [nodeAt, ih]
    rcases hn : (L k)[n]? with _ | a
    · rw [Option.bind_none, eq_comm, List.getElem?_eq_none_iff]
      have := List.getElem?_eq_none_iff.mp hn
      omega
    · obtain ⟨hlt, ha⟩ := List.getElem?_eq_some_iff.mp hn
      have hsplit : L k = (L k).take n ++ a :: (L k).drop (n + 1) := by
        rw [← ha, List.cons_getElem_drop_succ, List.take_append_drop]
      have hlinked : DList.Linked s.nextOf s.prevOf none
          ((L k).take n ++ a :: (L k).drop (n + 1)) :=
        hsplit ▸ h.table.linked k
      rw [Option.bind_some, hlinked.neighbours.2, List.head?_drop]

/-- **`pop_free` takes the first block.** -/
theorem popFree_cons (h : Lists s L) (hk : L k = i :: l) (hle : i + 2 ^ k ≤ s.totalFrames) :
    ∃ s', s.popFree k = some (some i, s') ∧ Keeps s s' ∧ Lists s' (Function.update L k l) ∧
      ∀ y, s'.bit y = if Has (i, k) y then false else s.bit y := by
  have hi : i ∈ L k := hk ▸ List.mem_cons_self
  have herase : (L k).erase i = l := by rw [hk, List.erase_cons_head]
  have hlinked : DList.Linked s.nextOf s.prevOf none (i :: l) := hk ▸ h.table.linked k
  have hprev : s.prevOf i = none := hlinked.1
  obtain ⟨-, hnx⟩ := h.table.listed_neighbours hi
  obtain ⟨s', hs', hkeep, hf, hn, hp, hb⟩ := popFree_links (by rw [h.head, hk, List.head?_cons])
    (hle.trans h.tracked) (h.mapped ⟨k, hi⟩) fun j hj => h.mapped ⟨k, hnx j hj⟩
  refine ⟨s', hs', hkeep, herase ▸ h.of_erase hkeep hi (fun l => ?_) (fun b _ => ?_)
    (fun b _ => ?_), hb⟩
  · by_cases hl : l = k
    · subst hl
      rw [Function.update_self, hf, Function.update_self, h.table.head?_erase hi, hprev,
        Option.elim_none]
    · rw [Function.update_of_ne hl, hf, Function.update_of_ne hl, h.head]
  · rw [hn, hprev, if_neg (by simp)]
  · rw [hp, hprev]

end Lists

end YontiOs.Buddy
