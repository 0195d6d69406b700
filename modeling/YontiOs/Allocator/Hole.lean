import YontiOs.Allocator.Blocks
import YontiOs.Allocator.FreeIndex

/-!
# Allocator/Hole — a heap with a hole in it

While `malloc` or `free` is at work, one stretch of the heap is in no order yet: its block has left
its list, or its header is being rewritten.  `Hole H s X sz q Z L` is the invariant of such a state:
the blocks `X` from `H` up to the hole, `sz` bytes of hole, the blocks `Z` behind it up to the
sentinel, the first header there still describing a block `q`, and the free lists `L` of exactly the
free blocks of `X` and `Z`.

A heap at rest has the hole of size 0 in front of all its blocks.  The allocator's steps open the
hole (`Hole.absorbNext`, `Hole.absorbPrev`, `Hole.forgetNext`), write in it (`Hole.rewrite`) and
fill it again (`Hole.fillUsed`, `Hole.fillFree`); none of them changes a byte of the payloads around
it.
-/

namespace YontiOs.Tlsf

variable {m m' : Mem} {L : ℕ × ℕ → List ℕ} {s s' : TlsfAllocator} {H n r sz a x y f k : ℕ}
  {p q b : Block} {bs X Z : List Block}

/-! ## Bytes of a layout -/

/-- The payload bytes of the allocated blocks. -/
def Payload (a : ℕ) (bs : List Block) (x : ℕ) : Prop :=
  ∃ y b, (y, b) ∈ place a bs ∧ b.free = false ∧ y + 8 ≤ x ∧ x < y + b.size

theorem payload_append {xs ys : List Block} :
    Payload a (xs ++ ys) x ↔ Payload a xs x ∨ Payload (a + total xs) ys x := by
  simp only [Payload, place_append, List.mem_append, or_and_right, exists_or]

theorem payload_cons :
    Payload a (b :: bs) x ↔
      (b.free = false ∧ a + 8 ≤ x ∧ x < a + b.size) ∨ Payload (a + b.size) bs x := by
  simp only [Payload, place_cons, List.mem_cons, Prod.mk.injEq, or_and_right, exists_or]
  simp

@[simp] theorem payload_nil : ¬ Payload a [] x := by
  simp [Payload]

theorem Payload.bounds (h : Payload a bs x) : a + 8 ≤ x ∧ x < a + total bs := by
  obtain ⟨y, b, hy, -, h1, h2⟩ := h
  obtain ⟨-, hlo, hhi⟩ := place_bounds hy
  omega

/-- The node of a placed free block meets no header and no payload of the list. -/
theorem node_off_layout (hbs : Sized bs) (ha : (a, ⟨n, true⟩) ∈ place H bs) (h1 : a + 8 ≤ x)
    (h2 : x < a + 24) :
    (∀ y b, (y, b) ∈ place H bs → x < y ∨ y + 8 ≤ x) ∧ ¬ Payload H bs x := by
  have hn := (hbs _ (place_bounds ha).1).2
  constructor
  · intro y b hy
    have hb := (hbs _ (place_bounds hy).1).2
    dsimp only at hn
    rcases place_separate ha hy with ⟨rfl, -⟩ | h | h
    · omega
    · dsimp only at h
      omega
    · omega
  · rintro ⟨y, b, hy, hfree, h3, h4⟩
    dsimp only at hn
    rcases place_separate ha hy with ⟨-, rfl⟩ | h | h
    · cases hfree
    · dsimp only at h
      omega
    · omega

/-! ## The invariant -/

/-- The heap's region: `n` bytes from `H`. -/
structure Region (s : TlsfAllocator) (H n : ℕ) : Prop where
  start : s.heapStart = H
  stop : s.heapEnd = H + n
  pos : 0 < H
  aligned : H % 8 = 0
  fits : H + n < 2 ^ 64
  small : n < 2 ^ 32

/-- `L` lists the free blocks of the two stretches, each in the class of its size. -/
def Lists (L : ℕ × ℕ → List ℕ) (H : ℕ) (X : List Block) (N : ℕ) (Z : List Block) : Prop :=
  ∀ f k a, a ∈ L (f, k) ↔
    ∃ n, ((a, ⟨n, true⟩) ∈ place H X ∨ (a, ⟨n, true⟩) ∈ place N Z) ∧ mapping n = some (f, k)

/-- **A heap with a hole** of `sz` bytes between the blocks `X` and the blocks `Z`. -/
structure Hole (H : ℕ) (s : TlsfAllocator) (X : List Block) (sz : ℕ) (q : Block) (Z : List Block)
    (L : ℕ × ℕ → List ℕ) : Prop where
  region : Region s H (total X + sz + total Z)
  frontSized : Sized X
  aligned : sz % 8 = 0
  backSized : Sized Z
  front : Tagged s.mem H sentinel X
  back : Tagged s.mem (H + total X + sz) q (Z ++ [sentinel])
  index : Index s L
  lists : Lists L H X (H + total X + sz) Z

/-- A byte the allocator has no business with: of a payload outside the hole, or outside the heap
and its sentinel. -/
def Kept (H : ℕ) (X : List Block) (sz : ℕ) (Z : List Block) (x : ℕ) : Prop :=
  (Payload H X x ∨ Payload (H + total X + sz) Z x) ∨ x < H ∨ H + total X + sz + total Z + 8 ≤ x

theorem kept_zero : Kept H X 0 Z x ↔ Kept H [] 0 (X ++ Z) x := by
  simp [Kept, payload_append, add_assoc]

/-- A free block behind the hole has no payload. -/
theorem kept_cons_free : Kept H X sz (⟨n, true⟩ :: Z) x ↔ Kept H X (sz + n) Z x := by
  simp [Kept, payload_cons, add_assoc]

/-- A free block before the hole has no payload. -/
theorem kept_concat_free : Kept H (X ++ [⟨n, true⟩]) sz Z x ↔ Kept H X (n + sz) Z x := by
  simp [Kept, payload_append, payload_cons, add_assoc]

/-- A listed block lies in one of the two stretches. -/
theorem Hole.listed_cases (h : Hole H s X sz q Z L) (ha : Listed L a) : ∃ n, 32 ≤ n ∧
    ((a, ⟨n, true⟩) ∈ place H X ∨ (a, ⟨n, true⟩) ∈ place (H + total X + sz) Z) := by
  obtain ⟨⟨f, k⟩, hm⟩ := ha
  obtain ⟨n, hn, -⟩ := (h.lists f k a).mp hm
  refine ⟨n, ?_, hn⟩
  rcases hn with hn | hn
  · exact (h.frontSized _ (place_bounds hn).1).2
  · exact (h.backSized _ (place_bounds hn).1).2

/-- The listed blocks keep clear of the hole. -/
theorem Hole.listed_off (h : Hole H s X sz q Z L) (ha : Listed L a) :
    H ≤ a ∧ a + 32 ≤ H + total X + sz + total Z ∧
      (a + 32 ≤ H + total X ∨ H + total X + sz ≤ a) := by
  obtain ⟨n, h32, hn | hn⟩ := h.listed_cases ha <;>
    obtain ⟨-, hlo, hhi⟩ := place_bounds hn <;> dsimp only at hhi <;> omega

theorem Hole.nodeByte_off (h : Hole H s X sz q Z L) (hx : NodeByte L x) :
    x < H + total X ∨ H + total X + sz + 8 ≤ x := by
  obtain ⟨a, ha, h1, h2⟩ := hx
  have := h.listed_off ha
  omega

/-- **No free node meets a header or a payload.** -/
theorem Hole.node_off (h : Hole H s X sz q Z L) (hx : NodeByte L x) :
    (∀ y b, (y, b) ∈ place H X → x < y ∨ y + 8 ≤ x) ∧
      (∀ y b, (y, b) ∈ place (H + total X + sz) (Z ++ [sentinel]) → x < y ∨ y + 8 ≤ x) ∧
        ¬ Kept H X sz Z x := by
  obtain ⟨a, ha, h1, h2⟩ := hx
  obtain ⟨n, h32, hn | hn⟩ := h.listed_cases ha
  · obtain ⟨hhead, hpay⟩ := node_off_layout h.frontSized hn h1 h2
    obtain ⟨-, hlo, hhi⟩ := place_bounds hn
    dsimp only at hhi
    refine ⟨hhead, fun y b hy => .inl ?_, ?_⟩
    · have := (place_bounds hy).2.1
      omega
    · rintro ((hk | hk) | hk)
      · exact hpay hk
      · have := hk.bounds
        omega
      · omega
  · obtain ⟨hhead, hpay⟩ := node_off_layout h.backSized hn h1 h2
    obtain ⟨-, hlo, hhi⟩ := place_bounds hn
    dsimp only at hhi
    refine ⟨fun y b hy => .inr ?_, fun y b hy => ?_, ?_⟩
    · obtain ⟨hb, -, hend⟩ := place_bounds hy
      have := (h.frontSized b hb).2
      omega
    · rw [place_append, List.mem_append] at hy
      rcases hy with hy | hy
      · exact hhead y b hy
      · simp only [place_cons, place_nil, List.mem_singleton, Prod.mk.injEq] at hy
        omega
    · rintro ((hk | hk) | hk)
      · have := hk.bounds
        omega
      · exact hpay hk
      · omega

/-- A change of free nodes and of the hole's inside leaves every header and payload alone. -/
theorem Hole.tags_of_agree (h : Hole H s X sz q Z L) (m' : Mem)
    (hag : ∀ x, ¬ NodeByte L x → (x < H + total X ∨ H + total X + sz ≤ x) → m' x = s.mem x) :
    Tagged m' H sentinel X ∧ Tagged m' (H + total X + sz) q (Z ++ [sentinel]) ∧
      ∀ x, Kept H X sz Z x → m' x = s.mem x := by
  refine ⟨h.front.congr fun y b hy => header_congr fun x h1 h2 => hag x (fun hx => ?_) ?_,
    h.back.congr fun y b hy => header_congr fun x h1 h2 => hag x (fun hx => ?_) ?_,
    fun x hx => hag x (fun hn => (h.node_off hn).2.2 hx) ?_⟩
  · have := (h.node_off hx).1 y b hy
    omega
  · obtain ⟨hb, -, hend⟩ := place_bounds hy
    have := (h.frontSized b hb).2
    omega
  · have := (h.node_off hx).2.1 y b hy
    omega
  · have := (place_bounds hy).2.1
    omega
  · rcases hx with (hx | hx) | hx
    · exact .inl (by have := hx.bounds; omega)
    · exact .inr (by have := hx.bounds; omega)
    · omega

/-- A payload byte is in no header of the layout. -/
theorem Payload.off_headers (hbs : Sized bs) (hx : Payload H bs x) :
    (∀ y b, (y, b) ∈ place H bs → x < y ∨ y + 8 ≤ x) ∧ x < H + total bs := by
  refine ⟨fun y b hy => ?_, hx.bounds.2⟩
  obtain ⟨z, c, hz, -, h1, h2⟩ := hx
  have hb := (hbs b (place_bounds hy).1).2
  rcases place_separate hz hy with ⟨rfl, -⟩ | h | h <;> omega

/-- **The client's stores**: bytes of payloads may change at will. -/
theorem Hole.store (h : Hole H s [] 0 sentinel bs L)
    (hag : ∀ x, ¬ Payload H bs x → m' x = s.mem x) :
    Hole H { s with mem := m' } [] 0 sentinel bs L := by
  refine ⟨⟨h.region.start, h.region.stop, h.region.pos, h.region.aligned, h.region.fits,
    h.region.small⟩, h.frontSized, h.aligned, h.backSized, tagged_nil, ?_,
    h.index.congr fun x hx => hag x fun hp => (h.node_off hx).2.2 (.inl (.inr hp)), h.lists⟩
  refine h.back.congr fun y b hy => header_congr fun x h1 h2 => hag x fun hp => ?_
  obtain ⟨hoff, hlt⟩ := hp.off_headers h.backSized
  rw [place_append, List.mem_append] at hy
  rcases hy with hy | hy
  · have := hoff y b hy
    omega
  · simp only [place_cons, place_nil, List.mem_singleton, Prod.mk.injEq, total_nil] at hy
    omega

/-! ## Opening the hole -/

/-- A hole of size 0 may stand anywhere between the blocks. -/
theorem Hole.slide : Hole H s X 0 (X.getLastD sentinel) Z L ↔
    Hole H s [] 0 sentinel (X ++ Z) L := by
  have hlists : Lists L H X (H + total X + 0) Z ↔ Lists L H [] (H + total [] + 0) (X ++ Z) := by
    simp [Lists, place_append]
  constructor
  · intro h
    refine ⟨by simpa using h.region, sized_nil, rfl, sized_append.mpr ⟨h.frontSized, h.backSized⟩,
      tagged_nil, ?_, h.index, hlists.mp h.lists⟩
    rw [List.append_assoc]
    exact tagged_append.mpr ⟨h.front, h.back⟩
  · intro h
    obtain ⟨hX, hZ⟩ := sized_append.mp h.backSized
    have hback := h.back
    rw [List.append_assoc] at hback
    obtain ⟨hfront, hback⟩ := tagged_append.mp hback
    exact ⟨by simpa using h.region, hX, rfl, hZ, hfront, hback, h.index, hlists.mpr h.lists⟩

/-- An allocated block behind the hole is on no list: the hole may swallow it as it is. -/
theorem Hole.forgetNext (h : Hole H s X sz q (⟨n, false⟩ :: Z) L) :
    Hole H s X (sz + n) ⟨n, false⟩ Z L := by
  obtain ⟨⟨hn, -⟩, hZ⟩ := sized_cons.mp h.backSized
  refine ⟨?_, h.frontSized, ?_, hZ, h.front, ?_, h.index, ?_⟩
  · have := h.region
    rwa [total_cons, ← add_assoc, add_assoc (total X)] at this
  · have := h.aligned
    dsimp only at hn
    omega
  · rw [← add_assoc]
    exact h.back.2
  · intro f k a
    rw [h.lists, place_cons, ← add_assoc]
    simp

/-- **`remove` of the free block behind the hole** lets the hole swallow it. -/
theorem Hole.absorbNext (h : Hole H s X sz q (⟨n, true⟩ :: Z) L) :
    ∃ s' L', s.remove (H + total X + sz) = some s' ∧ Hole H s' X (sz + n) ⟨n, true⟩ Z L' ∧
      (∀ x, Kept H X (sz + n) Z x → s'.mem x = s.mem x) ∧
      ∀ x, H + total X ≤ x → x < H + total X + sz + 8 → s'.mem x = s.mem x := by
  have hreg := h.region
  rw [total_cons] at hreg
  obtain ⟨⟨hn, h32⟩, hZ⟩ := sized_cons.mp h.backSized
  dsimp only at hn h32 hreg
  have hsmall := hreg.small
  obtain ⟨f, k, hm⟩ := mapping_isSome (n := n) (by omega) (by omega)
  have hmem : H + total X + sz ∈ L (f, k) :=
    (h.lists f k _).mpr ⟨n, .inr List.mem_cons_self, hm⟩
  have hsize : (header s.mem (H + total X + sz)).size = n := by
    rw [h.back.1]
    exact size_tagged (show n % 4 = 0 by omega) (show n < 2 ^ 32 by omega)
  obtain ⟨s', hrem, hidx, hst, hen, hfr⟩ := h.index.remove_spec hmem (hsize ▸ hm)
  obtain ⟨hfront, hback, hkept⟩ := h.tags_of_agree s'.mem fun x hx _ => hfr x hx
  refine ⟨s', _, hrem, ⟨?_, h.frontSized, by have := h.aligned; omega, hZ, hfront, ?_, hidx, ?_⟩,
    fun x hx => hkept x (kept_cons_free.mpr hx), fun x h1 h2 => hfr x fun hx => ?_⟩
  · refine ⟨hst.trans hreg.start, hen.trans (hreg.stop.trans ?_), hreg.pos, hreg.aligned, ?_, ?_⟩
    · omega
    · have := hreg.fits
      omega
    · omega
  · rw [← add_assoc]
    exact hback.2
  · -- the block is the only one placed at its address
    intro f' k' b
    rw [h.index.threads.table.mem_erase hmem, h.lists, place_cons, ← add_assoc]
    constructor
    · rintro ⟨⟨c, hc | hc, hcm⟩, hne⟩
      · exact ⟨c, .inl hc, hcm⟩
      · rcases List.mem_cons.mp hc with hc | hc
        · exact absurd (congrArg Prod.fst hc) hne
        · exact ⟨c, .inr hc, hcm⟩
    · rintro ⟨c, hc | hc, hcm⟩
      · refine ⟨⟨c, .inl hc, hcm⟩, ?_⟩
        have h1 := (h.frontSized _ (place_bounds hc).1).2
        have h2 := (place_bounds hc).2.2
        dsimp only at h1 h2
        omega
      · refine ⟨⟨c, .inr (List.mem_cons_of_mem _ hc), hcm⟩, ?_⟩
        have := (place_bounds hc).2.1
        omega
  · have := h.nodeByte_off hx
    omega

/-- **`remove` of the free block before the hole** lets the hole swallow it. -/
theorem Hole.absorbPrev (h : Hole H s (X ++ [⟨n, true⟩]) sz q Z L) :
    ∃ s' L', s.remove (H + total X) = some s' ∧ Hole H s' X (n + sz) q Z L' ∧
      (∀ x, Kept H X (n + sz) Z x → s'.mem x = s.mem x) ∧
      ∀ x, H + total X ≤ x → x < H + total X + 8 → s'.mem x = s.mem x := by
  have hreg := h.region
  have htot : total (X ++ [⟨n, true⟩]) = total X + n := by simp
  obtain ⟨hX, hlast⟩ := sized_append.mp h.frontSized
  obtain ⟨⟨hn, h32⟩, -⟩ := sized_cons.mp hlast
  dsimp only at hn h32
  rw [htot] at hreg
  have hsmall := hreg.small
  obtain ⟨f, k, hm⟩ := mapping_isSome (n := n) (by omega) (by omega)
  have hplace : place H (X ++ [⟨n, true⟩]) = place H X ++ [(H + total X, ⟨n, true⟩)] := by
    rw [place_append, place_cons, place_nil]
  have hmem : H + total X ∈ L (f, k) :=
    (h.lists f k _).mpr ⟨n, .inl (by simp [hplace]), hm⟩
  have hhead := h.front.header_middle
  have hsize : (header s.mem (H + total X)).size = n := by
    rw [hhead]
    exact size_tagged (show n % 4 = 0 by omega) (show n < 2 ^ 32 by omega)
  obtain ⟨s', hrem, hidx, hst, hen, hfr⟩ := h.index.remove_spec hmem (hsize ▸ hm)
  obtain ⟨hfront, hback, hkept⟩ := h.tags_of_agree s'.mem fun x hx _ => hfr x hx
  have hnext : H + total (X ++ [⟨n, true⟩]) + sz = H + total X + (n + sz) := by omega
  refine ⟨s', _, hrem, ⟨?_, hX, by have := h.aligned; omega, h.backSized,
    (tagged_append.mp hfront).1, hnext ▸ hback, hidx, ?_⟩,
    fun x hx => hkept x (kept_concat_free.mpr hx), fun x h1 h2 => hfr x fun hx => ?_⟩
  · refine ⟨hst.trans hreg.start, hen.trans (hreg.stop.trans ?_), hreg.pos, hreg.aligned, ?_, ?_⟩
    · omega
    · have := hreg.fits
      omega
    · omega
  · intro f' k' b
    rw [h.index.threads.table.mem_erase hmem, h.lists, hplace, hnext]
    constructor
    · rintro ⟨⟨c, hc | hc, hcm⟩, hne⟩
      · rcases List.mem_append.mp hc with hc | hc
        · exact ⟨c, .inl hc, hcm⟩
        · exact absurd (congrArg Prod.fst (List.mem_singleton.mp hc)) hne
      · exact ⟨c, .inr hc, hcm⟩
    · rintro ⟨c, hc | hc, hcm⟩
      · refine ⟨⟨c, .inl (List.mem_append_left _ hc), hcm⟩, ?_⟩
        have h1 := (hX _ (place_bounds hc).1).2
        have h2 := (place_bounds hc).2.2
        dsimp only at h1 h2
        omega
      · refine ⟨⟨c, .inr hc, hcm⟩, ?_⟩
        have := (place_bounds hc).2.1
        omega
  · have := (h.node_off hx).1 (H + total X) ⟨n, true⟩ (by simp [hplace])
    omega

/-! ## Writing in the hole -/

/-- **A store into the hole, or to the header behind it**: the new header decides what the back
stretch says about the hole. -/
theorem Hole.rewrite (h : Hole H s X sz q Z L)
    (hag : ∀ x, x < H + total X ∨ H + total X + sz + 8 ≤ x → m' x = s.mem x)
    (hnext : header m' (H + total X + sz)
      = tagged p.size (Z.headD sentinel).size (Z.headD sentinel).free p.free) :
    Hole H { s with mem := m' } X sz p Z L ∧ ∀ x, Kept H X sz Z x → m' x = s.mem x := by
  refine ⟨⟨⟨h.region.start, h.region.stop, h.region.pos, h.region.aligned, h.region.fits,
    h.region.small⟩, h.frontSized, h.aligned, h.backSized, ?_, ?_,
    h.index.congr fun x hx => hag x (h.nodeByte_off hx), h.lists⟩, ?_⟩
  · refine h.front.congr fun y b hy => header_congr fun x h1 h2 => hag x (.inl ?_)
    obtain ⟨hb, -, hend⟩ := place_bounds hy
    have := (h.frontSized b hb).2
    omega
  · have hback := h.back
    cases Z with
    | nil => exact ⟨hnext, trivial⟩
    | cons t Z =>
      refine hback.behind hnext fun y c hy => header_congr fun x h1 h2 => hag x (.inr ?_)
      have := (sized_cons.mp h.backSized).1.2
      have := (place_bounds hy).2.1
      omega
  · rintro x ((hx | hx) | hx)
    · exact hag x (.inl (by have := hx.bounds; omega))
    · exact hag x (.inr (by have := hx.bounds; omega))
    · exact hag x (by omega)

/-! ## Filling the hole -/

/-- The front of the hole becomes an allocated block, once its header says so. -/
theorem Hole.fillUsed (h : Hole H s X (n + r) q Z L) (hn : n % 8 = 0) (h32 : 32 ≤ n)
    (hown : header s.mem (H + total X)
      = tagged (X.getLastD sentinel).size n false (X.getLastD sentinel).free) :
    Hole H s (X ++ [⟨n, false⟩]) r q Z L := by
  have htot : total (X ++ [⟨n, false⟩]) = total X + n := by simp
  have hnext : H + total (X ++ [⟨n, false⟩]) + r = H + total X + (n + r) := by omega
  refine ⟨?_, sized_append.mpr ⟨h.frontSized, sized_cons.mpr ⟨⟨hn, h32⟩, sized_nil⟩⟩, ?_,
    h.backSized, tagged_append.mpr ⟨h.front, hown, trivial⟩, hnext ▸ h.back, h.index, ?_⟩
  · have := h.region
    rwa [htot, add_assoc (total X)]
  · have := h.aligned
    omega
  · intro f k a
    rw [h.lists, hnext, place_append, place_cons, place_nil]
    simp

/-- The hole is at a multiple of 8. -/
theorem Hole.dvd (h : Hole H s X sz q Z L) : 8 ∣ H + total X := by
  have := h.frontSized.total_mod
  have := h.region.aligned
  omega

theorem Hole.dvd_next (h : Hole H s X sz q Z L) : 8 ∣ H + total X + sz :=
  (Nat.dvd_add_right h.dvd).mpr (Nat.dvd_of_mod_eq_zero h.aligned)

/-- **`insert` turns the hole into a free block**, once its header says so. -/
theorem Hole.fillFree (h : Hole H s X n q Z L) (h32 : 32 ≤ n)
    (hown : header s.mem (H + total X)
      = tagged (X.getLastD sentinel).size n true (X.getLastD sentinel).free) :
    ∃ s' L', s.insert (H + total X) n = some s' ∧ Hole H s' (X ++ [⟨n, true⟩]) 0 q Z L' ∧
      ∀ x, Kept H X n Z x → s'.mem x = s.mem x := by
  have hreg := h.region
  have hsmall := hreg.small
  have hfits := hreg.fits
  obtain ⟨f, k, hm⟩ := mapping_isSome (n := n) (by omega) (by omega)
  have hfresh : ¬ Listed L (H + total X) := fun hl => by
    have := h.listed_off hl
    omega
  have hap : ∀ b, Listed L b → Apart (H + total X) b := fun b hb => by
    have := h.listed_off hb
    simp only [Apart]
    omega
  have hval : 0 < H + total X ∧ H + total X < 2 ^ 64 := ⟨by have := hreg.pos; omega, by omega⟩
  obtain ⟨s', hins, hidx, hst, hen, hfr⟩ := h.index.insert_spec hm hfresh hval h.dvd hap
  -- only old nodes and the hole's inside are written
  obtain ⟨hfront, hback, hkept⟩ := h.tags_of_agree s'.mem fun x hx hout => by
    refine hfr x ?_
    rintro ⟨b, hb, h1, h2⟩
    rcases Table.listed_push.mp hb with rfl | hb
    · omega
    · exact hx ⟨b, hb, h1, h2⟩
  have hkeep : header s'.mem (H + total X) = header s.mem (H + total X) := by
    refine header_congr fun x h1 h2 => hfr x ?_
    rintro ⟨b, hb, h3, h4⟩
    rcases Table.listed_push.mp hb with rfl | hb
    · omega
    · have := h.listed_off hb
      omega
  have htot : total (X ++ [⟨n, true⟩]) = total X + n := by simp
  have hnext : H + total (X ++ [⟨n, true⟩]) + 0 = H + total X + n := by omega
  refine ⟨s', _, hins, ⟨?_, sized_append.mpr ⟨h.frontSized, sized_cons.mpr
    ⟨⟨h.aligned, h32⟩, sized_nil⟩⟩, rfl, h.backSized,
    tagged_append.mpr ⟨hfront, hkeep.trans hown, trivial⟩, hnext ▸ hback, hidx, ?_⟩, hkept⟩
  · rw [htot, add_zero]
    exact ⟨hst.trans hreg.start, hen.trans hreg.stop, hreg.pos, hreg.aligned, hfits, hsmall⟩
  · intro f' k' b
    rw [Table.mem_push, Prod.mk.injEq, h.lists, hnext, place_append, place_cons, place_nil]
    simp only [List.mem_append, List.mem_singleton, Prod.mk.injEq, Block.mk.injEq, and_true]
    constructor
    · rintro (⟨rfl, rfl, rfl⟩ | ⟨c, hc, hcm⟩)
      · exact ⟨n, .inl (.inr ⟨rfl, rfl⟩), hm⟩
      · exact ⟨c, hc.imp .inl id, hcm⟩
    · rintro ⟨c, (hc | ⟨rfl, rfl⟩) | hc, hcm⟩
      · exact .inr ⟨c, .inl hc, hcm⟩
      · obtain ⟨rfl, rfl⟩ := Prod.mk.inj (Option.some.inj (hcm.symm.trans hm))
        exact .inl ⟨rfl, rfl, rfl⟩
      · exact .inr ⟨c, .inr hc, hcm⟩

end YontiOs.Tlsf
