import YontiOs.Allocator.Tlsf

/-!
# Allocator/Tags — what headers and free nodes say, and what a store leaves alone

`tagged ps sz fr pf` is the header of a block of size `sz`: its size and its two flags share one
word, and as sizes are multiples of 4 the three are read back independently.  The rest is frames: a
header is the 8 bytes at its address, a node the 16 bytes behind it, and no store reaches further.
-/

namespace YontiOs.Tlsf

/-! ## The tag word -/

section Tag

variable {ps sz i : ℕ} {fr pf : Bool}

/-- The header of a block of size `sz` behind a block of size `ps`. -/
def tagged (ps sz : ℕ) (fr pf : Bool) : BlockHeader :=
  ⟨BitVec.ofNat 32 ps, BitVec.ofNat 32 sz ||| (if fr then freeFlag else 0) |||
    (if pf then prevFreeFlag else 0)⟩

theorem getLsbD_freeFlag : freeFlag.getLsbD i = decide (i = 0) := by
  simp [freeFlag, BitVec.getLsbD_one]

theorem getLsbD_prevFreeFlag : prevFreeFlag.getLsbD i = decide (i = 1) :=
  Word.getLsbD_one_shiftLeft (show 1 < 32 by decide)

/-- **The bits of a tag word**: the size, and a flag in each of the two lowest places. -/
theorem getLsbD_tagged : (tagged ps sz fr pf).sizeAndFlags.getLsbD i
    = ((BitVec.ofNat 32 sz).getLsbD i || (fr && decide (i = 0)) || (pf && decide (i = 1))) := by
  simp only [tagged, BitVec.getLsbD_or]
  cases fr <;> cases pf <;> simp [getLsbD_freeFlag, getLsbD_prevFreeFlag]

/-- A multiple of 4 leaves the flag bits clear. -/
theorem getLsbD_size_low (h4 : sz % 4 = 0) (hi : i < 2) :
    (BitVec.ofNat 32 sz).getLsbD i = false := by
  rw [BitVec.getLsbD_ofNat, Nat.testBit_eq_decide_div_mod_eq]
  interval_cases i <;> simp <;> omega

/-- The size read from a tag word has its flag places cleared. -/
theorem size_tagged_eq (hlt : sz < 2 ^ 32) : (tagged ps sz fr pf).size = sz / 4 * 4 := by
  have hmask : (tagged ps sz fr pf).sizeAndFlags &&& ~~~3#32 = BitVec.ofNat 32 (sz / 4 * 4) := by
    refine BitVec.eq_of_getLsbD_eq fun i hi => ?_
    rw [BitVec.getLsbD_and, BitVec.getLsbD_not, getLsbD_tagged, BitVec.getLsbD_ofNat (n := 32) 3,
      show (3 : ℕ) = 2 ^ 2 - 1 from rfl, Nat.testBit_two_pow_sub_one]
    by_cases hlow : i < 2
    · simp only [getLsbD_size_low (Nat.mul_mod_left (sz / 4) 4) hlow, hlow, hi, decide_true,
        Bool.true_and, Bool.not_true, Bool.and_false]
    · have hbit : (sz / 4 * 4).testBit i = sz.testBit i := by
        rw [show sz / 4 * 4 = 2 ^ 2 * (sz / 2 ^ 2) by omega, Nat.testBit_two_pow_mul,
          Nat.testBit_div_two_pow, decide_eq_true (by omega), Bool.true_and]
        congr 1
        omega
      simp only [BitVec.getLsbD_ofNat, hbit, hlow, hi, show i ≠ 0 by omega, show i ≠ 1 by omega,
        decide_true, decide_false, Bool.and_false, Bool.or_false, Bool.not_false, Bool.and_true,
        Bool.true_and]
  rw [BlockHeader.size, hmask, BitVec.toNat_ofNat, Nat.mod_eq_of_lt (by omega)]

theorem size_tagged (h4 : sz % 4 = 0) (hlt : sz < 2 ^ 32) : (tagged ps sz fr pf).size = sz := by
  rw [size_tagged_eq hlt]
  omega

theorem isFree_eq_getLsbD (h : BlockHeader) : h.isFree = h.sizeAndFlags.getLsbD 0 :=
  Bool.eq_iff_iff.mpr (bne_iff_ne.trans
    (Word.and_one_shiftLeft_ne_zero (x := h.sizeAndFlags) (i := 0) (by decide)))

theorem prevIsFree_eq_getLsbD (h : BlockHeader) : h.prevIsFree = h.sizeAndFlags.getLsbD 1 :=
  Bool.eq_iff_iff.mpr (bne_iff_ne.trans
    (Word.and_one_shiftLeft_ne_zero (x := h.sizeAndFlags) (i := 1) (by decide)))

theorem isFree_tagged (h4 : sz % 4 = 0) : (tagged ps sz fr pf).isFree = fr := by
  rw [isFree_eq_getLsbD, getLsbD_tagged, getLsbD_size_low h4 (by decide)]
  simp

theorem prevIsFree_tagged (h4 : sz % 4 = 0) : (tagged ps sz fr pf).prevIsFree = pf := by
  rw [prevIsFree_eq_getLsbD, getLsbD_tagged, getLsbD_size_low h4 (by decide)]
  simp

theorem prevPhysSize_tagged (hlt : ps < 2 ^ 32) :
    (tagged ps sz fr pf).prevPhysSize.toNat = ps := by
  rw [tagged, BitVec.toNat_ofNat, Nat.mod_eq_of_lt hlt]

/-- `set` writes the whole tag word and keeps the back size. -/
theorem set_eq_tagged {h : BlockHeader} (hps : h.prevPhysSize = BitVec.ofNat 32 ps)
    (hlt : sz < 2 ^ 32) : h.set sz fr pf = some (tagged ps sz fr pf) := by
  rw [BlockHeader.set, if_pos (by omega), hps]
  rfl

/-- Two headers agree when their back sizes and their tag bits do. -/
theorem BlockHeader.ext_bits {h k : BlockHeader} (hps : h.prevPhysSize = k.prevPhysSize)
    (hb : ∀ i < 32, h.sizeAndFlags.getLsbD i = k.sizeAndFlags.getLsbD i) : h = k := by
  obtain ⟨p, x⟩ := h
  obtain ⟨q, y⟩ := k
  obtain rfl : p = q := hps
  obtain rfl : x = y := BitVec.eq_of_getLsbD_eq hb
  rfl

theorem getLsbD_markFree {h : BlockHeader} {b : Bool} (hi : i < 32) :
    (h.markFree b).sizeAndFlags.getLsbD i = if i = 0 then b else h.sizeAndFlags.getLsbD i := by
  by_cases h0 : i = 0 <;> cases b <;>
    simp only [BlockHeader.markFree, BitVec.getLsbD_or, BitVec.getLsbD_and, BitVec.getLsbD_not,
      getLsbD_freeFlag, h0, hi, decide_true, decide_false, if_true, if_false, Bool.or_true,
      Bool.or_false, Bool.not_true, Bool.not_false, Bool.and_false, Bool.and_true, reduceCtorEq]

theorem getLsbD_markPrevFree {h : BlockHeader} {b : Bool} (hi : i < 32) :
    (h.markPrevFree b).sizeAndFlags.getLsbD i = if i = 1 then b else h.sizeAndFlags.getLsbD i := by
  by_cases h1 : i = 1 <;> cases b <;>
    simp only [BlockHeader.markPrevFree, BitVec.getLsbD_or, BitVec.getLsbD_and, BitVec.getLsbD_not,
      getLsbD_prevFreeFlag, h1, hi, decide_true, decide_false, if_true, if_false, Bool.or_true,
      Bool.or_false, Bool.not_true, Bool.not_false, Bool.and_false, Bool.and_true, reduceCtorEq]

/-- `mark_free` changes the flag alone. -/
theorem markFree_tagged {b : Bool} (h4 : sz % 4 = 0) :
    (tagged ps sz fr pf).markFree b = tagged ps sz b pf := by
  refine BlockHeader.ext_bits (by cases b <;> rfl) fun i hi => ?_
  rw [getLsbD_markFree hi, getLsbD_tagged, getLsbD_tagged]
  split_ifs with h0
  · subst h0
    rw [getLsbD_size_low h4 (by decide)]
    simp
  · simp [h0]

/-- `mark_prev_free` changes the other flag alone. -/
theorem markPrevFree_tagged {b : Bool} (h4 : sz % 4 = 0) :
    (tagged ps sz fr pf).markPrevFree b = tagged ps sz fr b := by
  refine BlockHeader.ext_bits (by cases b <;> rfl) fun i hi => ?_
  rw [getLsbD_markPrevFree hi, getLsbD_tagged, getLsbD_tagged]
  split_ifs with h1
  · subst h1
    rw [getLsbD_size_low h4 (by decide)]
    simp
  · simp [h1]

end Tag

/-! ## Stores and their frames -/

section Frame

variable {m m' : Mem} {a b x : ℕ} {h : BlockHeader} {v : FreeNode}

/-- A header is the 8 bytes at its address. -/
theorem header_congr (hag : ∀ x, a ≤ x → x < a + 8 → m' x = m x) : header m' a = header m a := by
  rw [header, header, Mem.readLE_congr (w := m') fun x h1 h2 => hag x h1 (by omega),
    Mem.readLE_congr (w := m') fun x h1 h2 => hag x (by omega) (by omega)]

/-- A node is the 16 bytes at its address. -/
theorem node_congr (hag : ∀ x, a ≤ x → x < a + 16 → m' x = m x) : node m' a = node m a := by
  rw [node, node, Mem.readLE_congr (w := m') fun x h1 h2 => hag x h1 (by omega),
    Mem.readLE_congr (w := m') fun x h1 h2 => hag x (by omega) (by omega)]

theorem putHeader_of_notMem (hx : x < a ∨ a + 8 ≤ x) : putHeader m a h x = m x := by
  rw [putHeader, Mem.writeLE_of_notMem (by omega), Mem.writeLE_of_notMem (by omega)]

theorem putNode_of_notMem (hx : x < a ∨ a + 16 ≤ x) : putNode m a v x = m x := by
  rw [putNode, Mem.writeLE_of_notMem (by omega), Mem.writeLE_of_notMem (by omega)]

@[simp] theorem header_putHeader_self : header (putHeader m a h) a = h := by
  have hp : (putHeader m a h).readLE a 4 = h.prevPhysSize.toNat := by
    rw [putHeader, Mem.readLE_writeLE_of_disjoint (by omega), Mem.readLE_writeLE_self]
    exact Nat.mod_eq_of_lt h.prevPhysSize.isLt
  have hs : (putHeader m a h).readLE (a + 4) 4 = h.sizeAndFlags.toNat := by
    rw [putHeader, Mem.readLE_writeLE_self]
    exact Nat.mod_eq_of_lt h.sizeAndFlags.isLt
  rw [header, hp, hs, BitVec.ofNat_toNat, BitVec.ofNat_toNat]
  rfl

/-- **A header store leaves the other headers alone.** -/
theorem header_putHeader_of_disjoint (hd : b + 8 ≤ a ∨ a + 8 ≤ b) :
    header (putHeader m a h) b = header m b :=
  header_congr fun _ _ _ => putHeader_of_notMem (by omega)

/-- A link that memory can hold: a non-null 64-bit address. -/
def Storable (l : Option ℕ) : Prop := ∀ p ∈ l, 0 < p ∧ p < 2 ^ 64

@[simp] theorem storable_none : Storable none := fun _ h => nomatch h

@[simp] theorem storable_some {p : ℕ} : Storable (some p) ↔ 0 < p ∧ p < 2 ^ 64 := by
  simp [Storable]

theorem pointer_getD {l : Option ℕ} (hl : Storable l) : pointer (l.getD 0 % 256 ^ 8) = l := by
  cases l with
  | none => rfl
  | some p =>
    obtain ⟨h0, h1⟩ := hl p rfl
    rw [Option.getD_some, Nat.mod_eq_of_lt (by omega), pointer, if_neg (by omega)]

/-- **A stored node is read back.** -/
theorem node_putNode_self (hp : Storable v.prev) (hn : Storable v.next) :
    node (putNode m a v) a = v := by
  have hprev : (putNode m a v).readLE a 8 = v.prev.getD 0 % 256 ^ 8 := by
    rw [putNode, Mem.readLE_writeLE_of_disjoint (by omega), Mem.readLE_writeLE_self]
  have hnext : (putNode m a v).readLE (a + 8) 8 = v.next.getD 0 % 256 ^ 8 := by
    rw [putNode, Mem.readLE_writeLE_self]
  rw [node, hprev, hnext, pointer_getD hp, pointer_getD hn]

theorem node_putNode_of_disjoint (hd : b + 16 ≤ a ∨ a + 16 ≤ b) :
    node (putNode m a v) b = node m b :=
  node_congr fun _ _ _ => putNode_of_notMem (by omega)

/-- What memory holds is a storable link. -/
theorem storable_pointer : Storable (pointer (m.readLE a 8)) := by
  intro p hp
  have hlt := Mem.readLE_lt m a 8
  rw [pointer] at hp
  split_ifs at hp with h0
  · cases hp
  · obtain rfl : m.readLE a 8 = p := Option.some.inj hp
    omega

theorem storable_prev : Storable (node m a).prev := by
  simp only [node]
  exact storable_pointer

theorem storable_next : Storable (node m a).next := by
  simp only [node]
  exact storable_pointer

end Frame

end YontiOs.Tlsf
