import YontiOs.Allocator.Classes
import YontiOs.Allocator.Tags
import YontiOs.Machinery.ListTable

/-!
# Allocator/FreeIndex — the segregated free lists as a table of lists

The allocator's free lists are threaded through memory and indexed by two levels of bitmaps.
`Index s L` says that they hold the table `L`: for every class `(f, k)` a list of block addresses,
no address in two places.  It has a memory half (`Threads`, the links) and a register half
(`Roots`, the heads and the bitmaps).

`insert` and `remove` then are edits of the table (`Index.insert_spec`, `Index.remove_spec`), and
outside the nodes of listed blocks they change no byte.
-/

namespace YontiOs.Tlsf

open DList

variable {m m' : Mem} {L : ℕ × ℕ → List ℕ} {s : TlsfAllocator} {a b f k x : ℕ}

/-- `x` is a byte of the free node of a listed block. -/
def NodeByte (L : ℕ × ℕ → List ℕ) (x : ℕ) : Prop := ∃ a, Listed L a ∧ a + 8 ≤ x ∧ x < a + 24

theorem not_nodeByte_iff : ¬ NodeByte L x ↔ ∀ a, Listed L a → x < a + 8 ∨ a + 24 ≤ x := by
  constructor
  · intro hx a ha
    by_contra hno
    exact hx ⟨a, ha, by omega, by omega⟩
  · rintro h ⟨a, ha, h1, h2⟩
    have := h a ha
    omega

/-! ## Links -/

/-- The link a block's node holds forwards. -/
def nextOf (m : Mem) (a : ℕ) : Option ℕ := (node m (nodeOf a)).next

/-- The link a block's node holds backwards. -/
def prevOf (m : Mem) (a : ℕ) : Option ℕ := (node m (nodeOf a)).prev

/-- Store a backward link. -/
def setPrev (m : Mem) (a : ℕ) (v : Option ℕ) : Mem :=
  putNode m (nodeOf a) { node m (nodeOf a) with prev := v }

/-- Store a forward link. -/
def setNext (m : Mem) (a : ℕ) (v : Option ℕ) : Mem :=
  putNode m (nodeOf a) { node m (nodeOf a) with next := v }

theorem setPrev_of_notMem {v : Option ℕ} (hx : x < a + 8 ∨ a + 24 ≤ x) : setPrev m a v x = m x :=
  putNode_of_notMem (by simpa [nodeOf, headerSize, add_assoc] using hx)

theorem setNext_of_notMem {v : Option ℕ} (hx : x < a + 8 ∨ a + 24 ≤ x) : setNext m a v x = m x :=
  putNode_of_notMem (by simpa [nodeOf, headerSize, add_assoc] using hx)

theorem node_setPrev_self {v : Option ℕ} (hv : Storable v) :
    node (setPrev m a v) (nodeOf a) = ⟨v, nextOf m a⟩ := by
  rw [setPrev, node_putNode_self hv (by dsimp only; exact storable_next), nextOf]

theorem node_setNext_self {v : Option ℕ} (hv : Storable v) :
    node (setNext m a v) (nodeOf a) = ⟨prevOf m a, v⟩ := by
  rw [setNext, node_putNode_self (by dsimp only; exact storable_prev) hv, prevOf]

/-- Two nodes do not overlap. -/
def Apart (a b : ℕ) : Prop := a + 24 ≤ b ∨ b + 24 ≤ a

/-- An edit of one node is not seen at another. -/
theorem node_putNode_of_apart {v : FreeNode} (h : Apart a b) :
    node (putNode m (nodeOf a) v) (nodeOf b) = node m (nodeOf b) := by
  refine node_putNode_of_disjoint ?_
  simp only [nodeOf, headerSize]
  rcases h with h | h <;> omega

theorem nextOf_setPrev {v : Option ℕ} (hv : Storable v) (h : b ≠ a → Apart a b) :
    nextOf (setPrev m a v) b = nextOf m b := by
  by_cases hb : b = a
  · subst hb
    rw [nextOf, node_setPrev_self hv]
  · rw [nextOf, setPrev, node_putNode_of_apart (h hb), nextOf]

theorem prevOf_setPrev {v : Option ℕ} (hv : Storable v) (h : b ≠ a → Apart a b) :
    prevOf (setPrev m a v) b = if some a = some b then v else prevOf m b := by
  by_cases hb : b = a
  · subst hb
    rw [prevOf, node_setPrev_self hv, if_pos rfl]
  · rw [if_neg (by simpa using Ne.symm hb), prevOf, setPrev, node_putNode_of_apart (h hb), prevOf]

theorem prevOf_setNext {v : Option ℕ} (hv : Storable v) (h : b ≠ a → Apart a b) :
    prevOf (setNext m a v) b = prevOf m b := by
  by_cases hb : b = a
  · subst hb
    rw [prevOf, node_setNext_self hv]
  · rw [prevOf, setNext, node_putNode_of_apart (h hb), prevOf]

theorem nextOf_setNext {v : Option ℕ} (hv : Storable v) (h : b ≠ a → Apart a b) :
    nextOf (setNext m a v) b = if some a = some b then v else nextOf m b := by
  by_cases hb : b = a
  · subst hb
    rw [nextOf, node_setNext_self hv, if_pos rfl]
  · rw [if_neg (by simpa using Ne.symm hb), nextOf, setNext, node_putNode_of_apart (h hb), nextOf]

/-! ## The memory half -/

/-- The lists of `L` are threaded through memory, and their nodes do not overlap. -/
structure Threads (m : Mem) (L : ℕ × ℕ → List ℕ) : Prop where
  table : Table (nextOf m) (prevOf m) L
  valid : ∀ {a}, Listed L a → 0 < a ∧ a < 2 ^ 64
  aligned : ∀ {a}, Listed L a → 8 ∣ a
  apart : ∀ {a b}, Listed L a → Listed L b → b ≠ a → Apart a b

/-- The links depend on the bytes of the listed nodes alone. -/
theorem Threads.congr (h : Threads m L) (hag : ∀ x, NodeByte L x → m' x = m x) :
    Threads m' L := by
  refine ⟨h.table.congr fun b hb => ?_, h.valid, h.aligned, h.apart⟩
  have hnode : node m' (nodeOf b) = node m (nodeOf b) := node_congr fun x h1 h2 =>
    hag x ⟨b, hb, by simpa [nodeOf, headerSize] using h1,
      by simpa [nodeOf, headerSize, add_assoc] using h2⟩
  exact ⟨congrArg FreeNode.next hnode, congrArg FreeNode.prev hnode⟩

/-- The memory `insert` leaves: the new node, and the old head pointing back at it. -/
def insertMem (m : Mem) (block : ℕ) : Option ℕ → Mem
  | some head => setPrev (putNode m (nodeOf block) ⟨none, some head⟩) head (some block)
  | none => putNode m (nodeOf block) ⟨none, none⟩

/-- The memory `remove` leaves: the two neighbours pointing at each other. -/
def unlinkMem (m : Mem) (prev next : Option ℕ) : Mem :=
  let m := match prev with
    | some p => setNext m p next
    | none => m
  match next with
  | some n => setPrev m n prev
  | none => m

/-- **A fresh block threaded in front of one list.** -/
theorem Threads.insertMem (h : Threads m L) (hfresh : ¬ Listed L a) (hval : 0 < a ∧ a < 2 ^ 64)
    (h8 : 8 ∣ a) (hap : ∀ b, Listed L b → Apart a b) :
    Threads (insertMem m a (L (f, k)).head?) (Function.update L (f, k) (a :: L (f, k))) := by
  have hlisted : ∀ b, (L (f, k)).head? = some b → Listed L b := fun b hb =>
    ⟨_, List.mem_of_head? hb⟩
  have hst : Storable (L (f, k)).head? := fun b hb => h.valid (hlisted b hb)
  have hsa : Storable (some a) := storable_some.mpr hval
  -- the links of the new node and of the listed ones, once the new node is stored
  have hna : node (putNode m (nodeOf a) ⟨none, (L (f, k)).head?⟩) (nodeOf a)
      = ⟨none, (L (f, k)).head?⟩ := node_putNode_self storable_none hst
  have hnb : ∀ b v, Listed L b → node (putNode m (nodeOf a) v) (nodeOf b) = node m (nodeOf b) :=
    fun b v hb => node_putNode_of_apart (hap b hb)
  refine ⟨?_, fun hb => (Table.listed_push.mp hb).elim (fun hb => hb ▸ hval) h.valid,
    fun hb => (Table.listed_push.mp hb).elim (fun hb => hb ▸ h8) h.aligned, ?_⟩
  · cases hh : (L (f, k)).head? with
    | none =>
      rw [hh] at hna
      refine h.table.push hfresh (by rw [Tlsf.insertMem, nextOf, hna, hh])
        (by rw [Tlsf.insertMem, prevOf, hna]) (fun b hb => ?_) (fun b hb _ => ?_)
        (fun b hb => absurd (hh.symm.trans hb) (by simp))
      · rw [Tlsf.insertMem, nextOf, hnb b _ hb, nextOf]
      · rw [Tlsf.insertMem, prevOf, hnb b _ hb, prevOf]
    | some c =>
      rw [hh] at hna
      have hc := hlisted c hh
      have hca : a ≠ c → Apart c a := fun _ => (hap c hc).symm
      have hcb : ∀ b, Listed L b → b ≠ c → Apart c b := fun b hb => h.apart hc hb
      refine h.table.push hfresh ?_ ?_ (fun b hb => ?_) (fun b hb hne => ?_) (fun b hb => ?_)
      · rw [Tlsf.insertMem, nextOf_setPrev hsa hca, nextOf, hna, hh]
      · rw [Tlsf.insertMem, prevOf_setPrev hsa hca, if_neg, prevOf, hna]
        exact fun hac => hfresh (Option.some.inj hac ▸ hc)
      · rw [Tlsf.insertMem, nextOf_setPrev hsa (hcb b hb), nextOf, hnb b _ hb, nextOf]
      · rw [Tlsf.insertMem, prevOf_setPrev hsa (hcb b hb), if_neg (hh ▸ hne), prevOf, hnb b _ hb,
          prevOf]
      · rw [Tlsf.insertMem, prevOf_setPrev hsa (hcb b (hlisted b hb)), if_pos (hh ▸ hb)]
  · intro b c hb hc hne
    rcases Table.listed_push.mp hb with hb | hb <;> rcases Table.listed_push.mp hc with hc | hc
    · exact absurd (hc.trans hb.symm) hne
    · exact hb ▸ hap _ hc
    · exact hc ▸ (hap _ hb).symm
    · exact h.apart hb hc hne

theorem insertMem_of_not_nodeByte
    (hx : ¬ NodeByte (Function.update L (f, k) (a :: L (f, k))) x) :
    insertMem m a (L (f, k)).head? x = m x := by
  rw [not_nodeByte_iff] at hx
  have ha := hx a (Table.listed_push.mpr (.inl rfl))
  have hput : ∀ v, putNode m (nodeOf a) v x = m x := fun v =>
    putNode_of_notMem (by simpa [nodeOf, headerSize, add_assoc] using ha)
  cases hh : (L (f, k)).head? with
  | none => exact hput _
  | some b =>
    have hb := hx b (Table.listed_push.mpr (.inr ⟨_, List.mem_of_head? hh⟩))
    rw [insertMem, setPrev_of_notMem hb, hput]

/-- The links `unlinkMem` leaves at the listed blocks. -/
theorem links_unlinkMem (h : Threads m L) {p n : Option ℕ} (hp : ∀ c ∈ p, Listed L c)
    (hn : ∀ c ∈ n, Listed L c) (hb : Listed L b) :
    nextOf (unlinkMem m p n) b = (if p = some b then n else nextOf m b) ∧
      prevOf (unlinkMem m p n) b = (if n = some b then p else prevOf m b) := by
  have hsp : Storable p := fun c hc => h.valid (hp c hc)
  have hsn : Storable n := fun c hc => h.valid (hn c hc)
  have hap : ∀ {c}, Listed L c → b ≠ c → Apart c b := fun hc => h.apart hc hb
  rcases p with _ | p <;> rcases n with _ | n <;> simp only [unlinkMem]
  · simp
  · rw [nextOf_setPrev hsp (hap (hn n rfl)), prevOf_setPrev hsp (hap (hn n rfl))]
    simp
  · rw [nextOf_setNext hsn (hap (hp p rfl)), prevOf_setNext hsn (hap (hp p rfl))]
    simp
  · rw [nextOf_setPrev hsp (hap (hn n rfl)), prevOf_setPrev hsp (hap (hn n rfl)),
      nextOf_setNext hsn (hap (hp p rfl)), prevOf_setNext hsn (hap (hp p rfl))]
    exact ⟨rfl, rfl⟩

theorem unlinkMem_of_not_nodeByte {p n : Option ℕ} (hp : ∀ c ∈ p, Listed L c)
    (hn : ∀ c ∈ n, Listed L c) (hx : ¬ NodeByte L x) : unlinkMem m p n x = m x := by
  rw [not_nodeByte_iff] at hx
  rcases p with _ | p <;> rcases n with _ | n <;> simp only [unlinkMem]
  · exact setPrev_of_notMem (hx n (hn n rfl))
  · exact setNext_of_notMem (hx p (hp p rfl))
  · rw [setPrev_of_notMem (hx n (hn n rfl)), setNext_of_notMem (hx p (hp p rfl))]

/-- **A block unthreaded from its list.** -/
theorem Threads.unlinkMem (h : Threads m L) (ha : a ∈ L (f, k)) :
    Threads (unlinkMem m (prevOf m a) (nextOf m a))
      (Function.update L (f, k) ((L (f, k)).erase a)) := by
  obtain ⟨hp, hn⟩ := h.table.listed_neighbours ha
  have hlinks := fun b hb => links_unlinkMem h (b := b) (fun c hc => ⟨_, hp c hc⟩)
    (fun c hc => ⟨_, hn c hc⟩) hb
  have hold : ∀ {b}, Listed (Function.update L (f, k) ((L (f, k)).erase a)) b → Listed L b :=
    fun ⟨i, hb⟩ => ⟨i, ((h.table.mem_erase ha).mp hb).1⟩
  exact ⟨h.table.unlink ha (fun b hb => (hlinks b hb).1) (fun b hb => (hlinks b hb).2),
    fun hb => h.valid (hold hb), fun hb => h.aligned (hold hb),
    fun hb hc => h.apart (hold hb) (hold hc)⟩

/-! ## The register half -/

/-- The list heads and the two bitmap levels agree with `L`. -/
structure Roots (s : TlsfAllocator) (L : ℕ × ℕ → List ℕ) : Prop where
  head : ∀ f k, s.freeLists f k = (L (f, k)).head?
  slBit : ∀ f k, (s.slBitmaps f).getLsbD k = true ↔ L (f, k) ≠ []
  flBit : ∀ f, s.flBitmap.getLsbD f = true ↔ s.slBitmaps f ≠ 0
  range : ∀ f k, L (f, k) ≠ [] → f < flCount ∧ k < slCount

/-- The first level has the rows with a list that is not empty. -/
theorem Roots.flBit_iff (h : Roots s L) (f : ℕ) :
    s.flBitmap.getLsbD f = true ↔ ∃ k, L (f, k) ≠ [] := by
  rw [h.flBit, Word.ne_zero_iff]
  exact exists_congr fun k => h.slBit f k

/-- The head pointers after one of them was set. -/
theorem freeLists_setList {v : Option ℕ} {l : List ℕ}
    (h : ∀ f k, s.freeLists f k = (L (f, k)).head?) (hv : v = l.head?) (f' k' : ℕ) :
    (s.setList f k v).freeLists f' k' = (Function.update L (f, k) l (f', k')).head? := by
  simp only [TlsfAllocator.setList]
  by_cases hf : f' = f
  · subst hf
    by_cases hk : k' = k
    · subst hk
      simp [hv]
    · rw [Function.update_self, Function.update_of_ne hk, Function.update_of_ne (by simp [hk]), h]
  · rw [Function.update_of_ne hf, Function.update_of_ne (by simp [hf]), h]

/-- The range of a table after an edit of one list in range. -/
theorem Roots.range_update {l : List ℕ} (h : Roots s L) (hf : f < flCount) (hk : k < slCount)
    (f' k' : ℕ) (hne : Function.update L (f, k) l (f', k') ≠ []) : f' < flCount ∧ k' < slCount := by
  by_cases hc : (f', k') = (f, k)
  · obtain ⟨rfl, rfl⟩ := Prod.mk.inj hc
    exact ⟨hf, hk⟩
  · exact h.range f' k' (by rwa [Function.update_of_ne hc] at hne)

/-- A list of the table that is not empty stays so: only its head may move. -/
theorem Roots.rehead {s' : TlsfAllocator} {l : List ℕ} (h : Roots s L) (hne : L (f, k) ≠ [])
    (hl : l ≠ []) (hhead : ∀ f' k', s'.freeLists f' k' =
      (Function.update L (f, k) l (f', k')).head?)
    (hsl : s'.slBitmaps = s.slBitmaps) (hfl : s'.flBitmap = s.flBitmap) :
    Roots s' (Function.update L (f, k) l) where
  head := hhead
  slBit f' k' := by
    rw [hsl, h.slBit]
    by_cases hc : (f', k') = (f, k)
    · rw [hc, Function.update_self]
      exact ⟨fun _ => hl, fun _ => hne⟩
    · rw [Function.update_of_ne hc]
  flBit f' := by rw [hfl, hsl, h.flBit]
  range := h.range_update (h.range f k hne).1 (h.range f k hne).2

/-- **Pushing on a list** sets its two bits. -/
theorem Roots.push {s' : TlsfAllocator} (h : Roots s L) (hf : f < flCount) (hk : k < slCount)
    (hhead : ∀ f' k',
      s'.freeLists f' k' = (Function.update L (f, k) (a :: L (f, k)) (f', k')).head?)
    (hsl : s'.slBitmaps = Function.update s.slBitmaps f (Word.setBit (s.slBitmaps f) k))
    (hfl : s'.flBitmap = Word.setBit s.flBitmap f) :
    Roots s' (Function.update L (f, k) (a :: L (f, k))) where
  head := hhead
  slBit f' k' := by
    by_cases hff : f' = f
    · subst hff
      rw [hsl, Function.update_self, Word.getLsbD_setBit (show k < 32 from hk), Bool.or_eq_true,
        decide_eq_true_eq]
      by_cases hkk : k' = k
      · simp [hkk]
      · rw [Function.update_of_ne (by simp [hkk]), h.slBit]
        simp [hkk]
    · rw [hsl, Function.update_of_ne hff, Function.update_of_ne (by simp [hff]), h.slBit]
  flBit f' := by
    rw [hfl, Word.getLsbD_setBit (show f < 32 from lt_trans hf (by decide)), Bool.or_eq_true,
      decide_eq_true_eq, h.flBit, hsl]
    by_cases hff : f' = f
    · subst hff
      rw [Function.update_self]
      refine iff_of_true (.inr rfl) (Word.ne_zero_iff.mpr ⟨k, ?_⟩)
      rw [Word.getLsbD_setBit (show k < 32 from hk), decide_eq_true rfl, Bool.or_true]
    · rw [Function.update_of_ne hff]
      simp [hff]
  range := h.range_update hf hk

/-- **Emptying a list** clears its bit, and the level's bit with the level's last list. -/
theorem Roots.clear {s' : TlsfAllocator} (h : Roots s L) (hf : f < flCount) (hk : k < slCount)
    (hhead : ∀ f' k', s'.freeLists f' k' = (Function.update L (f, k) [] (f', k')).head?)
    (hsl : s'.slBitmaps = Function.update s.slBitmaps f (Word.clearBit (s.slBitmaps f) k))
    (hfl : s'.flBitmap = if Word.clearBit (s.slBitmaps f) k = 0 then Word.clearBit s.flBitmap f
      else s.flBitmap) :
    Roots s' (Function.update L (f, k) []) where
  head := hhead
  slBit f' k' := by
    by_cases hff : f' = f
    · subst hff
      rw [hsl, Function.update_self, Word.getLsbD_clearBit (show k < 32 from hk),
        Bool.and_eq_true, decide_eq_true_eq]
      by_cases hkk : k' = k
      · simp [hkk]
      · rw [Function.update_of_ne (by simp [hkk]), h.slBit]
        simp [hkk]
    · rw [hsl, Function.update_of_ne hff, Function.update_of_ne (by simp [hff]), h.slBit]
  flBit f' := by
    have hf32 : f < 32 := lt_trans hf (by decide)
    rw [hfl, hsl]
    by_cases hff : f' = f
    · subst hff
      rw [Function.update_self]
      split_ifs with h0
      · simp only [Word.getLsbD_clearBit hf32, h0, ne_eq, not_true, decide_false, Bool.and_false,
          iff_self, Bool.false_eq_true]
      · rw [h.flBit]
        refine iff_of_true (fun hz => h0 ?_) h0
        simp [hz, Word.clearBit]
    · rw [Function.update_of_ne hff, ← h.flBit]
      split_ifs
      · simp only [Word.getLsbD_clearBit hf32, ne_eq, hff, not_false_eq_true, decide_true,
          Bool.and_true]
      · rfl
  range := h.range_update hf hk

/-! ## The two edits of the code -/

/-- The allocator's free lists are the table `L`. -/
structure Index (s : TlsfAllocator) (L : ℕ × ℕ → List ℕ) : Prop where
  threads : Threads s.mem L
  roots : Roots s L

/-- A change of memory outside the listed nodes is not seen by the lists. -/
theorem Index.congr (h : Index s L) (hag : ∀ x, NodeByte L x → m' x = s.mem x) :
    Index { s with mem := m' } L :=
  ⟨h.threads.congr hag, h.roots.head, h.roots.slBit, h.roots.flBit, h.roots.range⟩

/-- The heads of the lists are listed, and so aligned. -/
theorem Index.aligned (h : Index s L) (f k b : ℕ) (hb : s.freeLists f k = some b) : 8 ∣ b :=
  h.threads.aligned ⟨_, List.mem_of_head? (h.roots.head f k ▸ hb)⟩

/-- The registers `remove` leaves: only the removal of a head moves them. -/
def unlinkRoots (s : TlsfAllocator) (f k : ℕ) : Option ℕ → Option ℕ → TlsfAllocator
  | none, none => (s.setList f k none).clearBits f k
  | none, some n => s.setList f k (some n)
  | some _, _ => s

theorem derefHeader_of_dvd (h : 8 ∣ a) : derefHeader a = some () :=
  deref_of_dvd ((by decide : 4 ∣ 8).trans h)

theorem derefNode_of_dvd (h : 8 ∣ a) : derefNode a = some () :=
  deref_of_dvd ((Nat.dvd_add_left (dvd_refl 8)).mpr h)

theorem insert_eq {sz : ℕ} (hm : mapping sz = some (f, k)) (ha : 8 ∣ a)
    (hhead : ∀ b ∈ s.freeLists f k, 8 ∣ b) :
    s.insert a sz = some
      { s with
        flBitmap := Word.setBit s.flBitmap f
        slBitmaps := Function.update s.slBitmaps f (Word.setBit (s.slBitmaps f) k)
        freeLists := (s.setList f k (some a)).freeLists
        mem := insertMem s.mem a (s.freeLists f k) } := by
  simp only [TlsfAllocator.insert, hm, derefNode_of_dvd ha, Option.bind_eq_bind, Option.bind_some]
  cases hh : s.freeLists f k with
  | none => rfl
  | some head =>
    simp only [derefNode_of_dvd (hhead head hh), Option.bind_some]
    rfl

theorem remove_eq (hm : mapping (header s.mem a).size = some (f, k)) (ha : 8 ∣ a)
    (hp : ∀ b ∈ prevOf s.mem a, 8 ∣ b) (hn : ∀ b ∈ nextOf s.mem a, 8 ∣ b) :
    s.remove a = some
      { unlinkRoots s f k (prevOf s.mem a) (nextOf s.mem a) with
        mem := unlinkMem s.mem (prevOf s.mem a) (nextOf s.mem a) } := by
  simp only [TlsfAllocator.remove, derefHeader_of_dvd ha, hm, derefNode_of_dvd ha,
    Option.bind_eq_bind, Option.bind_some]
  rw [prevOf] at hp ⊢
  rw [nextOf] at hn ⊢
  generalize node s.mem (nodeOf a) = v at *
  rcases v with ⟨_ | p, _ | n⟩
  · rfl
  · simp only [derefNode_of_dvd (hn n rfl), Option.bind_some]
    rfl
  · simp only [derefNode_of_dvd (hp p rfl), Option.bind_some]
    rfl
  · simp only [derefNode_of_dvd (hp p rfl), derefNode_of_dvd (hn n rfl), Option.bind_some]
    rfl

/-- **`insert` pushes a fresh block on the list of its class**, and writes listed nodes only. -/
theorem Index.insert_spec {sz : ℕ} (h : Index s L) (hm : mapping sz = some (f, k))
    (hfresh : ¬ Listed L a) (hval : 0 < a ∧ a < 2 ^ 64) (h8 : 8 ∣ a)
    (hap : ∀ b, Listed L b → Apart a b) :
    ∃ s', s.insert a sz = some s' ∧ Index s' (Function.update L (f, k) (a :: L (f, k))) ∧
      s'.heapStart = s.heapStart ∧ s'.heapEnd = s.heapEnd ∧
      ∀ x, ¬ NodeByte (Function.update L (f, k) (a :: L (f, k))) x → s'.mem x = s.mem x := by
  obtain ⟨hf, hk⟩ := mapping_range hm
  refine ⟨_, insert_eq hm h8 (h.aligned f k),
    ⟨?_, h.roots.push hf hk (freeLists_setList h.roots.head rfl) rfl rfl⟩, rfl, rfl,
    fun x hx => ?_⟩
  · dsimp only
    rw [h.roots.head]
    exact h.threads.insertMem hfresh hval h8 hap
  · dsimp only
    rw [h.roots.head]
    exact insertMem_of_not_nodeByte hx

/-- The registers after a block with these neighbours was unlinked. -/
theorem Roots.unlink {l : List ℕ} {p n : Option ℕ} (h : Roots s L) (hne : L (f, k) ≠ [])
    (hhead : l.head? = p.elim n fun _ => (L (f, k)).head?) :
    Roots (unlinkRoots s f k p n) (Function.update L (f, k) l) := by
  obtain ⟨hf, hk⟩ := h.range f k hne
  rcases p with _ | p
  · rw [Option.elim_none] at hhead
    rcases n with _ | n
    · rw [List.head?_eq_none_iff] at hhead
      subst hhead
      exact h.clear hf hk (freeLists_setList h.head rfl) rfl rfl
    · exact h.rehead hne (by rintro rfl; simp at hhead)
        (freeLists_setList h.head hhead.symm) rfl rfl
  · -- the head stays
    rw [Option.elim_some] at hhead
    refine h.rehead hne ?_ (fun f' k' => ?_) rfl rfl
    · rintro rfl
      exact hne (List.head?_eq_none_iff.mp hhead.symm)
    · simp only [unlinkRoots, h.head]
      by_cases hc : (f', k') = (f, k)
      · rw [hc, Function.update_self, hhead]
      · rw [Function.update_of_ne hc]

/-- **`remove` takes a block off the list of its class**, and writes listed nodes only. -/
theorem Index.remove_spec (h : Index s L) (ha : a ∈ L (f, k))
    (hm : mapping (header s.mem a).size = some (f, k)) :
    ∃ s', s.remove a = some s' ∧ Index s' (Function.update L (f, k) ((L (f, k)).erase a)) ∧
      s'.heapStart = s.heapStart ∧ s'.heapEnd = s.heapEnd ∧
      ∀ x, ¬ NodeByte L x → s'.mem x = s.mem x := by
  obtain ⟨hp, hn⟩ := h.threads.table.listed_neighbours ha
  have hroots := h.roots.unlink (List.ne_nil_of_mem ha) (h.threads.table.head?_erase ha)
  have hheap : ∀ p n, (unlinkRoots s f k p n).heapStart = s.heapStart ∧
      (unlinkRoots s f k p n).heapEnd = s.heapEnd := by
    rintro (_ | p) (_ | n) <;> exact ⟨rfl, rfl⟩
  have hthreads := h.threads.unlinkMem ha
  have heq := remove_eq hm (h.threads.aligned ⟨_, ha⟩)
    (fun b hb => h.threads.aligned ⟨_, hp b hb⟩) fun b hb => h.threads.aligned ⟨_, hn b hb⟩
  generalize prevOf s.mem a = p at *
  generalize nextOf s.mem a = n at *
  refine ⟨_, heq, ⟨hthreads, hroots.head, hroots.slBit, hroots.flBit, hroots.range⟩,
    (hheap p n).1, (hheap p n).2, fun x hx => ?_⟩
  exact unlinkMem_of_not_nodeByte (fun c hc => ⟨_, hp c hc⟩) (fun c hc => ⟨_, hn c hc⟩) hx

end YontiOs.Tlsf
