import YontiOs.Memory.FrameLists
import YontiOs.Machinery.BuddyPool
import YontiOs.Machinery.Returns

/-!
# Memory/FramePool — the frame allocator is a buddy system

`Holds G Q s L B` ties the three descriptions of the free frames together: the lists `L` threaded
through memory, the bitmap, and the ranges of a `Pool` in which `B` is in use.  Allocation is a
`pop` and a run of `split`s, deallocation a run of `merge`s and a `push`.

The merge loop decides by the bitmap alone.  That the buddy it then unlinks is on the list of its
order is `Pool.buddy_mem`, provided the pool is merged far enough (`Layout.Asks`).
-/

namespace YontiOs.Buddy

open AlignedRange BuddyAllocator

variable {s s' : BuddyAllocator} {L : ℕ → List ℕ} {B B' : List (ℕ × ℕ)} {Q : Set (ℕ × ℕ)}
  {nx pv : ℕ → Option ℕ} {l : List ℕ} {i j k x d order : ℕ}

/-- The free blocks that the lists hold. -/
def blocks (L : ℕ → List ℕ) : Set (ℕ × ℕ) := {b | b.1 ∈ L b.2}

theorem blocks_push : blocks (Function.update L k (i :: L k)) = insert (i, k) (blocks L) := by
  ext ⟨j, l⟩
  simp only [blocks, Set.mem_ofPred_eq, Table.mem_push, Set.mem_insert_iff, Prod.mk.injEq]

theorem blocks_erase (h : Table nx pv L) (hi : i ∈ L k) :
    blocks (Function.update L k ((L k).erase i)) = blocks L \ {(i, k)} := by
  ext ⟨j, l⟩
  simp only [blocks, Set.mem_ofPred_eq, h.mem_erase hi, Set.mem_sdiff, Set.mem_singleton_iff,
    Prod.mk.injEq]
  refine and_congr_right fun hj => not_congr ⟨?_, And.left⟩
  rintro rfl
  exact ⟨rfl, h.unique hi hj⟩

/-- What an allocator is built over: the frames it tracks, the address of the first, where physical
memory is mapped, and the frames it manages. -/
structure Layout where
  total : ℕ
  base : ℕ
  offset : ℕ
  usable : Set ℕ
  base_dvd : frameSize ∣ base

/-- The managed frames have addresses the hardware has. -/
def Layout.Mapped (G : Layout) : Prop :=
  ∀ x ∈ G.usable, x < G.total →
    G.base + x * frameSize < 2 ^ 52 ∧ G.base + x * frameSize + G.offset < 2 ^ 64

/-- `Q` has every half of a managed range. -/
def Layout.Asks (G : Layout) (Q : Set (ℕ × ℕ)) : Prop :=
  ∀ i k, k < maxOrder → 2 ^ k ∣ i → Fits maxOrder G.total (parent i k, k + 1) →
    (∀ x, Has (parent i k, k + 1) x → x ∈ G.usable) → (i, k) ∈ Q

/-- The block a `remove_free` call names is on the list it names. -/
def BuddyAllocator.RemoveCall.Member (c : RemoveCall) : Prop :=
  ∃ n, c.state.nodeAt c.order n = some c.idx

variable {G : Layout}

/-- **Lists, bitmap and pool agree**, the blocks `B` being in use. -/
structure Holds (G : Layout) (Q : Set (ℕ × ℕ)) (s : BuddyAllocator) (L : ℕ → List ℕ)
    (B : List (ℕ × ℕ)) : Prop where
  lists : Lists s L
  pool : Pool maxOrder G.total G.usable Q (blocks L) B
  bits : ∀ x, s.bit x = true ↔ Free (blocks L) x
  total_eq : s.totalFrames = G.total
  base_eq : s.basePhys = G.base
  offset_eq : s.physMemOffset = G.offset
  aligned : ∀ x ∈ G.usable, x < G.total → 8 ∣ G.base + G.offset

namespace Holds

/-- A block in use is all managed. -/
theorem mem_usable (h : Holds G Q s L B) {b : ℕ × ℕ} (hb : b ∈ B) (hx : Has b x) :
    x ∈ G.usable :=
  (h.pool.cover x (hx.2.trans_le (h.pool.used_fits b hb).le)).mpr (.inr ⟨b, hb, hx⟩)

theorem total_le (h : Holds G Q s L B) : G.total ≤ maxTrackedFrames :=
  h.total_eq ▸ h.lists.tracked

theorem withCount (h : Holds G Q s L B) (n : ℕ) : Holds G Q { s with allocatedCount := n } L B :=
  ⟨⟨h.lists.head, h.lists.table, h.lists.lt, h.lists.mapped, h.lists.tracked⟩, h.pool, h.bits,
    h.total_eq, h.base_eq, h.offset_eq, h.aligned⟩

theorem perm (h : Holds G Q s L B) (hB : B.Perm B') : Holds G Q s L B' :=
  ⟨h.lists, h.pool.perm hB, h.bits, h.total_eq, h.base_eq, h.offset_eq, h.aligned⟩

/-- There are no blocks beyond the largest order. -/
theorem eq_nil_of_lt (h : Holds G Q s L B) (hk : maxOrder < k) : L k = [] :=
  List.eq_nil_iff_forall_not_mem.mpr fun i hi =>
    absurd (h.pool.free_fits (i, k) hi).order_le (Nat.not_le.mpr hk)

/-- A call is made on a member when the list has the block. -/
theorem member_iff (h : Holds G Q s L B) : (⟨s, j, k⟩ : RemoveCall).Member ↔ j ∈ L k := by
  rw [List.mem_iff_getElem?]
  exact exists_congr fun n => by rw [h.lists.nodeAt_eq n]

/-- **`insert_free` is an insertion into the pool**, of a range that is not free. -/
theorem insertFree (h : Holds G Q s L B) (hnf : ¬ Free (blocks L) i)
    (hpool : Pool maxOrder G.total G.usable Q (insert (i, k) (blocks L)) B') :
    Returns G.Mapped (s.insertFree i k) fun s' =>
      s'.allocatedCount = s.allocatedCount ∧ ∃ L', Holds G Q s' L' B' := by
  have hfit := hpool.free_fits (i, k) (.inl rfl)
  have hle : i + 2 ^ k ≤ s.totalFrames := h.total_eq ▸ hfit.le
  have hpos := Nat.two_pow_pos k
  by_cases hi : s.Mapped i
  · obtain ⟨s', hs', hkeep, hl, hb⟩ := h.lists.insertFree hfit.dvd hle
      (fun ⟨j, hj⟩ => hnf ⟨(i, j), hj, has_self _⟩) hi
    refine .of_eq hs' ⟨hkeep.count, _, hl, blocks_push ▸ hpool, fun x => ?_,
      hkeep.total.trans h.total_eq, hkeep.base.trans h.base_eq, hkeep.offset.trans h.offset_eq,
      h.aligned⟩
    rw [hb, blocks_push, Pool.free_insert]
    split_ifs with hx
    · exact iff_of_true rfl (.inl hx)
    · rw [h.bits, or_iff_right hx]
  · refine ⟨fun s' hs' => absurd (mapped_of_insertFree (hle.trans h.lists.tracked) hs') hi,
      fun hmap => absurd ?_ hi⟩
    have hlt : i < G.total := by have := h.total_eq; omega
    have hU : i ∈ G.usable := (hpool.cover i hlt).mpr (.inl ⟨(i, k), .inl rfl, has_self _⟩)
    rw [Mapped, dvd_addr_iff, addr, h.base_eq, h.offset_eq]
    exact ⟨(hmap i hU hlt).2, h.aligned i hU hlt⟩

/-- **`pop_free` takes a range out.** -/
theorem popFree (h : Holds G Q s L B) (hk : L k = i :: l) : ∃ s', s.popFree k = some (some i, s') ∧
    s'.allocatedCount = s.allocatedCount ∧
    Holds G Q s' (Function.update L k l) ((i, k) :: B) := by
  have hi : i ∈ L k := hk ▸ List.mem_cons_self
  obtain ⟨s', hs', hkeep, hl, hb⟩ := h.lists.popFree_cons hk
    (h.total_eq ▸ (h.pool.free_fits (i, k) hi).le)
  have hblocks : blocks (Function.update L k l) = blocks L \ {(i, k)} := by
    rw [← blocks_erase h.lists.table hi, hk, List.erase_cons_head]
  refine ⟨s', hs', hkeep.count, hl, hblocks ▸ h.pool.pop hi, fun x => ?_,
    hkeep.total.trans h.total_eq, hkeep.base.trans h.base_eq, hkeep.offset.trans h.offset_eq,
    h.aligned⟩
  rw [hb, hblocks, h.pool.free_diff hi]
  split_ifs with hx
  · exact iff_of_false id fun h => h.2 hx
  · rw [h.bits, and_iff_left hx]

/-- **The split loop** gives back the upper halves. -/
theorem split (h : Holds G Q s L ((i, order + d) :: B)) :
    Returns G.Mapped (s.split i order d) fun s' =>
      s'.allocatedCount = s.allocatedCount ∧ ∃ L', Holds G Q s' L' ((i, order) :: B) := by
  induction d generalizing s L with
  | zero => exact .of_eq rfl ⟨rfl, L, h⟩
  | succ d ih =>
    have hfit := h.pool.used_fits _ List.mem_cons_self
    have hsucc : 2 ^ (order + d + 1) = 2 ^ (order + d) + 2 ^ (order + d) := by rw [pow_succ]; omega
    have hle : i + 2 ^ (order + d + 1) ≤ G.total := hfit.le
    have hpos := Nat.two_pow_pos (order + d)
    have hadd : Word.add i (2 ^ (order + d)) = some (i + 2 ^ (order + d)) := by
      have := h.total_le
      simp only [maxTrackedFrames] at this
      exact Word.add_of_lt (by omega)
    simp only [BuddyAllocator.split, hadd, Option.bind_eq_bind, Option.bind_some]
    have hupper : Has (i, order + d + 1) (i + 2 ^ (order + d)) := by
      simp only [Has]
      omega
    refine (h.insertFree (h.pool.not_free List.mem_cons_self hupper) h.pool.split).bind ?_
    rintro s₁ ⟨hc, L₁, h₁⟩
    exact (ih h₁).mono fun s₂ h₂ => ⟨h₂.1.trans hc, h₂.2⟩

/-- **A block in hand is handed out** by its address, and counted. -/
theorem handOut (h : Holds G Q s L ((i, k) :: B)) (hcount : s.allocatedCount = units B) :
    Returns G.Mapped (s.handOut i k) fun r => r.1 = some (G.base + i * frameSize) ∧
      Holds G Q r.2 L ((i, k) :: B) ∧ r.2.allocatedCount = units ((i, k) :: B) := by
  have hsum := h.pool.units_le
  rw [units_cons] at hsum ⊢
  have hadd : Word.add s.allocatedCount (2 ^ k) = some (2 ^ k + units B) := by
    have htotal := h.total_le
    simp only [maxTrackedFrames] at htotal
    rw [hcount, Nat.add_comm]
    exact Word.add_of_lt (by omega)
  rw [BuddyAllocator.handOut, hadd, Option.bind_eq_bind, Option.bind_some]
  have h' := h.withCount (2 ^ k + units B)
  dsimp only
  set s' : BuddyAllocator := { s with allocatedCount := 2 ^ k + units B }
  have hbase : s'.basePhys = G.base := h'.base_eq
  by_cases hphys : G.base + i * frameSize < 2 ^ 52
  · have hidx : s'.idxToPhys i = some (G.base + i * frameSize) :=
      hbase ▸ idxToPhys_eq (hbase.symm ▸ hphys.trans (by decide))
    have hround : (G.base + i * frameSize) / frameSize * frameSize = G.base + i * frameSize :=
      Nat.div_mul_cancel ((Nat.dvd_add_right G.base_dvd).mpr (Nat.dvd_mul_left _ _))
    rw [hidx, Option.bind_some, if_pos hphys, hround]
    exact .of_eq rfl ⟨rfl, h', rfl⟩
  · constructor
    · intro r hr
      obtain ⟨p, hp, hr⟩ := Option.bind_eq_some_iff.mp hr
      rw [idxToPhys_eq_some hp, hbase, if_neg hphys] at hr
      cases hr
    · intro hmap
      refine absurd (hmap i ?_ ?_).1 hphys
      · exact h.mem_usable List.mem_cons_self (has_self (i, k))
      · exact (has_self (i, k)).2.trans_le (h.pool.used_fits _ List.mem_cons_self).le

/-- **`allocate_frame_order`** hands out a block of the order, or changes nothing when there is no
block it could be part of. -/
theorem allocateFrameOrder (h : Holds G Q s L B) (hcount : s.allocatedCount = units B) :
    Returns G.Mapped (s.allocateFrameOrder order) fun r =>
      (r = (none, s) ∧ ∀ k, order ≤ k → L k = []) ∨
      ∃ i L', r.1 = some (G.base + i * frameSize) ∧ Holds G Q r.2 L' ((i, order) :: B) ∧
        r.2.allocatedCount = units ((i, order) :: B) := by
  rw [BuddyAllocator.allocateFrameOrder]
  split_ifs with hord
  · exact .of_eq rfl (.inl ⟨rfl, fun k hk => h.eq_nil_of_lt (by omega)⟩)
  rcases hfind : (List.range' order (maxOrder + 1 - order)).find? fun k => (s.freeLists k).isSome
    with _ | k
  · refine .of_eq rfl (.inl ⟨rfl, fun k hk => ?_⟩)
    rcases Nat.lt_or_ge maxOrder k with hlt | hle
    · exact h.eq_nil_of_lt hlt
    · have hnone := List.find?_eq_none.mp hfind k (List.mem_range'_1.mpr (by omega))
      rwa [h.lists.head, Option.not_isSome_iff_eq_none, List.head?_eq_none_iff] at hnone
  -- a list that has a first block
  have hsome : (s.freeLists k).isSome = true :=
    List.find?_some (p := fun k => (s.freeLists k).isSome) hfind
  obtain ⟨i, hhead⟩ := Option.isSome_iff_exists.mp hsome
  have hmem := List.mem_range'_1.mp (List.mem_of_find?_eq_some hfind)
  obtain ⟨d, rfl⟩ := Nat.exists_eq_add_of_le hmem.1
  rw [h.lists.head] at hhead
  obtain ⟨l, hL⟩ := List.head?_eq_some_iff.mp hhead
  obtain ⟨s₁, hpop, hc₁, h₁⟩ := h.popFree hL
  simp only [hpop, Option.bind_eq_bind, Option.bind_some, Nat.add_sub_cancel_left]
  refine h₁.split.bind ?_
  rintro s₂ ⟨hc₂, L₂, h₂⟩
  exact (h₂.handOut (hc₂.trans (hc₁.trans hcount))).mono fun r hr => .inr ⟨i, L₂, hr⟩

/-- **An allocation finds none** when no list from its order on has a block. -/
theorem allocateFrameOrder_eq_none_iff (h : Holds G Q s L B) (hcount : s.allocatedCount = units B) :
    (∃ s', s.allocateFrameOrder order = some (none, s')) ↔ ∀ k, order ≤ k → L k = [] := by
  constructor
  · rintro ⟨s', hs'⟩
    rcases (h.allocateFrameOrder hcount).post _ hs' with ⟨-, hnil⟩ | ⟨_, _, hsome, -⟩
    · exact hnil
    · cases hsome
  · intro hnil
    refine ⟨s, ?_⟩
    rw [BuddyAllocator.allocateFrameOrder]
    split_ifs with hord
    · rfl
    · rw [List.find?_eq_none.mpr fun k hk => ?_]
      rw [h.lists.head, hnil k (List.mem_range'_1.mp hk).1]
      decide

/-- An allocation of an order that has blocks takes the first of them. -/
theorem allocateFrameOrder_head (h : Holds G Q s L B) (hcount : s.allocatedCount = units B)
    (hk : k ≤ maxOrder) (hL : L k = i :: l) :
    Returns G.Mapped (s.allocateFrameOrder k) fun r => r.1 = some (G.base + i * frameSize) ∧
      Holds G Q r.2 (Function.update L k l) ((i, k) :: B) ∧
      r.2.allocatedCount = units ((i, k) :: B) := by
  have hsome : (s.freeLists k).isSome = true := by rw [h.lists.head, hL]; rfl
  obtain ⟨n, hn⟩ := Nat.exists_eq_add_of_le hk
  have hfind : (List.range' k (maxOrder + 1 - k)).find? (fun k => (s.freeLists k).isSome) =
      some k := by
    rw [show maxOrder + 1 - k = n + 1 by omega, List.range'_succ, List.find?_cons,
      hsome]
  obtain ⟨s₁, hpop, hc₁, h₁⟩ := h.popFree hL
  rw [BuddyAllocator.allocateFrameOrder, if_neg (by omega), hfind]
  simp only [hpop, Option.bind_eq_bind, Option.bind_some, Nat.sub_self, BuddyAllocator.split]
  exact h₁.handOut (hc₁.trans hcount)

/-- **A buddy that is free all over is one block of its order.** -/
theorem buddy_mem (h : Holds G Q s L ((i, k) :: B)) (hQ : G.Asks Q) (hk : k < maxOrder)
    (hle : buddy i k + 2 ^ k ≤ G.total) (hfree : ∀ x, Has (buddy i k, k) x → Free (blocks L) x) :
    buddy i k ∈ L k := by
  have hfit := h.pool.used_fits _ List.mem_cons_self
  obtain ⟨hpar, hbd, hcase⟩ := parent_cases hfit.dvd
  have hsucc : 2 ^ (k + 1) = 2 ^ k + 2 ^ k := by rw [pow_succ]; omega
  have hi : i + 2 ^ k ≤ G.total := hfit.le
  dsimp only at hpar hcase
  refine h.pool.buddy_mem (hQ (buddy i k) k hk hbd ?_ fun x hx => ?_) hk hle hfree
  · rw [parent_buddy]
    exact ⟨hpar, hk, by dsimp only; omega⟩
  · -- both halves are managed: one is in hand, the other is free
    rw [parent_buddy] at hx
    by_cases hix : Has (i, k) x
    · exact h.mem_usable List.mem_cons_self hix
    · have hbx : Has (buddy i k, k) x := by
        simp only [Has] at hx hix ⊢
        omega
      exact (h.pool.cover x (hbx.2.trans_le hle)).mpr (.inl (hfree x hbx))

/-- **One merge**: the buddy is unlinked, and the block in hand becomes the parent. -/
theorem takeBuddy (h : Holds G Q s L ((i, k) :: B)) (hk : k < maxOrder) (hb : buddy i k ∈ L k) :
    ∃ s', s.takeBuddy (buddy i k) k = some s' ∧ s'.allocatedCount = s.allocatedCount ∧
      Holds G Q s' (Function.update L k ((L k).erase (buddy i k))) ((parent i k, k + 1) :: B) := by
  obtain ⟨s₁, hs₁, hkeep, hbm, hl⟩ := h.lists.removeFree hb
  have hle : buddy i k + 2 ^ k ≤ maxTrackedFrames :=
    (h.pool.free_fits (buddy i k, k) hb).le.trans h.total_le
  obtain ⟨s₂, hs₂, hm⟩ := markRangeAllocated_spec (s := s₁) hle
  have hblocks := blocks_erase h.lists.table hb
  have hkeep₂ := hkeep.trans hm.keeps
  refine ⟨s₂, by rw [BuddyAllocator.takeBuddy, hs₁]; exact hs₂, hkeep₂.count, hl.of_marks hm,
    hblocks ▸ h.pool.merge hk hb, fun x => ?_, hkeep₂.total.trans h.total_eq,
    hkeep₂.base.trans h.base_eq, hkeep₂.offset.trans h.offset_eq, h.aligned⟩
  have hbit : s₁.bit x = s.bit x := by rw [bit, hbm, bit]
  rw [hm.bit, hbit, hblocks, h.pool.free_diff hb]
  split_ifs with hx
  · exact iff_of_false id fun h => h.2 hx
  · rw [h.bits]
    exact (and_iff_left hx).symm

/-- What the loop sees of a tracked buddy: whether it is free all over. -/
theorem isRangeFree_buddy (h : Holds G Q s L ((i, k) :: B)) (hk : k < maxOrder)
    (hlt : buddy i k < G.total) : ∃ r, s.isRangeFree (buddy i k) (2 ^ k) = some r ∧
      (r = true ↔ buddy i k + 2 ^ k ≤ G.total ∧ ∀ x, Has (buddy i k, k) x → Free (blocks L) x) := by
  have hpow : 2 ^ k ≤ 2 ^ maxOrder := Nat.pow_le_pow_right (by decide) hk.le
  have htotal := h.total_le
  obtain ⟨r, hr, hiff⟩ := isRangeFree_eq (buddy i k) (2 ^ k) h.lists.tracked (by
    simp only [maxTrackedFrames, maxOrder] at htotal hpow
    omega)
  refine ⟨r, hr, hiff.trans ?_⟩
  rw [h.total_eq]
  exact and_congr_right fun _ => ⟨fun hb x hx => (h.bits x).mp (hb x hx.1 hx.2),
    fun hf x h1 h2 => (h.bits x).mpr (hf x ⟨h1, h2⟩)⟩

/-- A turn of the merge loop that finds the buddy free: it calls `remove_free`, member or not. -/
theorem coalesce_of_free (h : Holds G Q s L ((i, k) :: B)) (hk : k < maxOrder)
    (hle : buddy i k + 2 ^ k ≤ G.total) (hfree : ∀ x, Has (buddy i k, k) x → Free (blocks L) x) :
    ∃ rest, s.coalesce i k (d + 1) = (⟨s, buddy i k, k⟩ :: rest.1, rest.2) ∧
      ∀ s', s.takeBuddy (buddy i k) k = some s' → rest = s'.coalesce (parent i k) (k + 1) d := by
  have hpos := Nat.two_pow_pos k
  obtain ⟨r, hr, hiff⟩ := h.isRangeFree_buddy hk (by omega)
  rw [hiff.mpr ⟨hle, hfree⟩] at hr
  rw [BuddyAllocator.coalesce]
  dsimp only
  rw [if_neg (by rw [h.total_eq]; omega), hr]
  refine ⟨_, rfl, fun s' hs' => ?_⟩
  rw [hs']
  rfl

/-- The block in hand cannot be merged any further. -/
def Stuck (G : Layout) (L : ℕ → List ℕ) (i k : ℕ) : Prop :=
  k < maxOrder → buddy i k + 2 ^ k ≤ G.total → ∃ x, Has (buddy i k, k) x ∧ ¬ Free (blocks L) x

/-- **The merge loop** unlinks blocks of the lists only, and stops when the block is stuck, given
that the pool has merged what it asks for or that it was seen to unlink such blocks only. -/
theorem coalesce (h : Holds G Q s L ((i, k) :: B))
    (hQ : G.Asks Q ∨ ∀ c ∈ (s.coalesce i k d).1, c.Member) (hd : k + d = maxOrder) :
    (∀ c ∈ (s.coalesce i k d).1, c.Member) ∧
      ∃ i' k' s' L', (s.coalesce i k d).2 = some (i', k', s') ∧
        s'.allocatedCount = s.allocatedCount ∧ Holds G Q s' L' ((i', k') :: B) ∧
            Stuck G L' i' k' := by
  induction d generalizing s L i k with
  | zero =>
    have hstuck : Stuck G L i k := fun hk => absurd hk (by omega)
    exact ⟨by simp [BuddyAllocator.coalesce], i, k, s, L, rfl, rfl, h, hstuck⟩
  | succ d ih =>
    have hk : k < maxOrder := by omega
    rcases Nat.lt_or_ge (buddy i k) G.total with hlt | hge
    · obtain ⟨r, hr, hiff⟩ := h.isRangeFree_buddy hk hlt
      cases r with
      | false =>
        have hstuck : Stuck G L i k := fun _ hle => by
          by_contra hno
          push Not at hno
          exact absurd (hiff.mpr ⟨hle, hno⟩) Bool.false_ne_true
        rw [BuddyAllocator.coalesce]
        dsimp only
        rw [if_neg (by rw [h.total_eq]; omega), hr]
        exact ⟨by simp, i, k, s, L, rfl, rfl, h, hstuck⟩
      | true =>
        obtain ⟨hle, hfree⟩ := hiff.mp rfl
        obtain ⟨rest, heq, hrest⟩ := h.coalesce_of_free (d := d) hk hle hfree
        rw [heq, List.forall_mem_cons] at hQ
        have hmem : buddy i k ∈ L k := hQ.elim (fun hQ => h.buddy_mem hQ hk hle hfree)
          fun hcalls => (h.member_iff (k := k)).mp hcalls.1
        obtain ⟨s₂, hs₂, hc, h₂⟩ := h.takeBuddy hk hmem
        obtain rfl := hrest s₂ hs₂
        obtain ⟨hcalls, i', k', s', L', hres, hcount, h', hstuck⟩ :=
          ih h₂ (hQ.imp_right And.right) (by omega)
        rw [heq]
        refine ⟨List.forall_mem_cons.mpr ⟨(h.member_iff (k := k)).mpr hmem, hcalls⟩, i', k', s', L',
          hres, hcount.trans hc, h', hstuck⟩
    · have hstuck : Stuck G L i k := fun _ hle => by
        have := Nat.two_pow_pos k
        omega
      rw [BuddyAllocator.coalesce]
      dsimp only
      rw [if_pos (by rw [h.total_eq]; exact hge)]
      exact ⟨by simp, i, k, s, L, rfl, rfl, h, hstuck⟩

/-- What comes before the loop gives it the block's index. -/
theorem merge_eq (h : Holds G Q s L ((i, k) :: B)) (hcount : s.allocatedCount = 2 ^ k + units B) :
    s.merge (G.base + i * frameSize) k =
      BuddyAllocator.coalesce { s with allocatedCount := units B } i k (maxOrder - k) := by
  have hsub : Word.sub s.allocatedCount (2 ^ k) = some (units B) := by
    rw [Word.sub_of_le (by omega), hcount, Nat.add_sub_cancel_left]
  have hidx : s.physToIdx (G.base + i * frameSize) = some i := by
    rw [physToIdx, h.base_eq, Word.sub_of_le (Nat.le_add_right _ _), Nat.add_sub_cancel_left]
    exact congrArg some (Nat.mul_div_cancel i (by decide))
  simp only [merge, hsub, hidx]

theorem removeCalls_eq (h : Holds G Q s L ((i, k) :: B))
    (hcount : s.allocatedCount = 2 ^ k + units B) :
    s.removeCalls (G.base + i * frameSize) k =
      (BuddyAllocator.coalesce { s with allocatedCount := units B } i k (maxOrder - k)).1 := by
  have hk : k ≤ maxOrder := (h.pool.used_fits _ List.mem_cons_self).order_le
  rw [removeCalls, if_neg (by omega), h.merge_eq hcount]

/-- **`deallocate_frame_order`** takes a block in use back, and unlinks blocks of the lists only. -/
theorem deallocateFrameOrder (h : Holds G Q s L ((i, k) :: B))
    (hQ : G.Asks Q ∨ ∀ c ∈ s.removeCalls (G.base + i * frameSize) k, c.Member)
    (hcount : s.allocatedCount = 2 ^ k + units B) :
    (∀ c ∈ s.removeCalls (G.base + i * frameSize) k, c.Member) ∧
      Returns G.Mapped (s.deallocateFrameOrder (G.base + i * frameSize) k) fun s' =>
        s'.allocatedCount = units B ∧ ∃ L', Holds G Q s' L' B := by
  have hk : k ≤ maxOrder := (h.pool.used_fits _ List.mem_cons_self).order_le
  rw [h.removeCalls_eq hcount] at hQ
  obtain ⟨hcalls, i', k', s', L', hres, hc, h', hstuck⟩ :=
    (h.withCount (units B)).coalesce hQ (Nat.add_sub_of_le hk)
  rw [h.removeCalls_eq hcount, BuddyAllocator.deallocateFrameOrder, if_neg (by omega),
    h.merge_eq hcount, hres]
  refine ⟨hcalls, ?_⟩
  have hnf := h'.pool.not_free List.mem_cons_self (has_self (i', k'))
  exact (h'.insertFree hnf (h'.pool.push hstuck)).mono fun s'' ⟨hc', hL⟩ => ⟨hc'.trans hc, hL⟩

end Holds

end YontiOs.Buddy
