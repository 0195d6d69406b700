import YontiOs.Allocator.Heap
import YontiOs.Memory.Mapper

/-!
# Allocator/InitHeap — mapping the heap

`init_heap` maps the pages of the heap and one more, for the sentinel behind its end, and then
initialises the allocator.  Each page gets a frame, and the mapper takes frames of its own for the
page tables that are missing on the way to the page.

With a mapper that does what is documented, where nothing is mapped at the heap, the heap is mapped
exactly if there is a frame for each page and each missing table; then no frame is mapped twice,
none was in use, and the heap is one free block (`init_heap_maps`).
-/

namespace YontiOs.Buddy

open BuddyAllocator AlignedRange

/-- `HEAP_START`. -/
def heapStart : ℕ := 0x444444440000

/-- `HEAP_SIZE`. -/
def heapSize : ℕ := 1048576

variable {τ : Type}

/-- The mapper's tables, and the frame allocator with its live frames. -/
structure Paging (τ : Type) where
  tables : τ
  frames : Sys

/-- The loop of `init_heap`. -/
def mapPages (m : Mapper τ) : List ℕ → Paging τ → Option (Except MapToError Unit × Paging τ)
  | [], b => some (.ok (), b)
  | page :: pages, b => do
    match ← b.frames.allocateFrame with
    | (none, frames) => some (.error .frameAllocationFailed, ⟨b.tables, frames⟩)
    | (some frame, frames) =>
      match ← m.mapTo page frame b.tables frames with
      | (.error e, tables, frames) => some (.error e, ⟨tables, frames⟩)
      | (.ok (), tables, frames) => mapPages m pages ⟨tables, frames⟩

/-- `page_range`: from the page of the start to that of the end, with both. -/
def heapPages : List ℕ :=
  List.range' (heapStart / frameSize)
    ((heapStart + heapSize) / frameSize - heapStart / frameSize + 1)

/-- `init_heap(mapper, frame_allocator)`, with the allocator it initialises. -/
def initHeap (m : Mapper τ) (heap : Tlsf.TlsfAllocator) (b : Paging τ) :
    Option (Except MapToError Tlsf.TlsfAllocator × Paging τ) := do
  match ← mapPages m heapPages b with
  | (.error e, b) => some (.error e, b)
  | (.ok (), b) => some (.ok (← heap.init heapStart heapSize), b)

/-! ## Taking frames -/

variable {G : Layout} {Q : Set (ℕ × ℕ)} {s s' s₁ s₂ : Sys} {L : ℕ → List ℕ} {B : List (ℕ × ℕ)}
  {m : Mapper τ} {t : τ} {b b' : Paging τ} {page : ℕ}

theorem Sys.Inv.nodup_live (h : s.Inv G Q L B) : s.live.Nodup := by
  rw [h.live]
  refine List.Nodup.map G.place_injective (h.holds.pool.used_off.imp fun {b c} hoff heq => ?_)
  have hpos := Nat.two_pow_pos b.2
  rw [← heq, Off] at hoff
  omega

/-- **One frame fewer is free**, or none is. -/
theorem Sys.Inv.allocateFrame (h : s.Inv G Q L B) : Returns G.Mapped s.allocateFrame fun r =>
    (r = (none, s) ∧ s.alloc.free.ncard = 0) ∨
      ∃ f L' B', r.1 = some f ∧ r.2.Inv G Q L' B' ∧ r.2.live = (f, 0) :: s.live ∧
        r.2.alloc.free.ncard + 1 = s.alloc.free.ncard := by
  refine (h.holds.allocateFrameOrder h.count).bind ?_
  rintro ⟨frame, a⟩ (⟨hr, hnil⟩ | ⟨i, L', hframe, h', hc⟩)
  · obtain ⟨rfl, rfl⟩ := Prod.mk.inj hr
    have hfree := h.allocateFrame_eq_none_iff.mp
      ((h.holds.allocateFrameOrder_eq_none_iff h.count).mpr hnil)
    exact .of_eq rfl (.inl ⟨rfl, by rw [hfree, Set.ncard_empty]⟩)
  · obtain rfl : frame = some (G.base + i * frameSize) := hframe
    have hinv : Sys.Inv G Q ⟨a, (G.base + i * frameSize, 0) :: s.live⟩ L' ((i, 0) :: B) :=
      ⟨h', by rw [h.live]; rfl, hc⟩
    refine .of_eq rfl (.inr ⟨_, L', _, rfl, hinv, rfl, ?_⟩)
    have hbefore := h.holds.pool.ncard_free_add_units
    have hafter := h'.pool.ncard_free_add_units
    have hfree := hinv.free_eq_setOf
    dsimp only at hfree ⊢
    rw [units_cons, ← hfree] at hafter
    rw [← h.free_eq_setOf] at hbefore
    omega

/-- The frames `new` are taken. -/
structure Takes (G : Layout) (Q : Set (ℕ × ℕ)) (s s' : Sys) (new : List (ℕ × ℕ)) : Prop where
  inv : ∃ L B, s'.Inv G Q L B
  live : s'.live = new ++ s.live
  free : s'.alloc.free.ncard + new.length = s.alloc.free.ncard

theorem Takes.refl (h : ∃ L B, s.Inv G Q L B) : Takes G Q s s [] := ⟨h, rfl, rfl⟩

theorem Takes.trans {new₁ new₂ : List (ℕ × ℕ)} (h₁ : Takes G Q s s₁ new₁)
    (h₂ : Takes G Q s₁ s₂ new₂) : Takes G Q s s₂ (new₂ ++ new₁) where
  inv := h₂.inv
  live := by rw [h₂.live, h₁.live, List.append_assoc]
  free := by
    have hfree₁ := h₁.free
    have hfree₂ := h₂.free
    rw [List.length_append]
    omega

/-- **Several frames** are taken exactly if so many are free. -/
theorem takeFrames_spec (n : ℕ) (h : ∃ L B, s.Inv G Q L B) :
    Returns G.Mapped (s.takeFrames n) fun r =>
      (r.1 = false ∧ s.alloc.free.ncard < n) ∨
      (r.1 = true ∧ ∃ new, Takes G Q s r.2 new ∧ new.length = n) := by
  induction n generalizing s with
  | zero => exact .of_eq rfl (.inr ⟨rfl, [], .refl h, rfl⟩)
  | succ n ih =>
    obtain ⟨L, B, hinv⟩ := h
    refine hinv.allocateFrame.bind ?_
    rintro ⟨frame, s₁⟩ (⟨hr, hfree⟩ | ⟨f, L', B', hframe, hinv', hlive, hfree⟩)
    · obtain ⟨rfl, rfl⟩ := Prod.mk.inj hr
      exact .of_eq rfl (.inl ⟨rfl, by omega⟩)
    · obtain rfl : frame = some f := hframe
      have htakes₁ : Takes G Q s s₁ [(f, 0)] := ⟨⟨L', B', hinv'⟩, hlive, hfree⟩
      refine (ih htakes₁.inv).mono ?_
      rintro ⟨ok, s₂⟩ (⟨hok, hlt⟩ | ⟨hok, new, htakes₂, hlen⟩)
      · dsimp only at hfree
        exact .inl ⟨hok, by omega⟩
      · exact .inr ⟨hok, _, htakes₁.trans htakes₂, by rw [List.length_append, hlen]; rfl⟩

/-! ## Mapping pages -/

/-- **A page that is not mapped gets its frame**, if there is a frame for each missing table. -/
theorem mapTo_spec (hm : m.Documented) {frame : ℕ} (h : ∃ L B, s.Inv G Q L B)
    (hpage : m.frameOf t page = none) (hclear : m.Clear t page) :
    Returns G.Mapped (m.mapTo page frame t s) fun r =>
      (r.1 = .error .frameAllocationFailed ∧ s.alloc.free.ncard < m.missing t page) ∨
      (r.1 = .ok () ∧ m.frameOf r.2.1 = Function.update (m.frameOf t) page (some frame) ∧
        m.Clear r.2.1 page ∧ m.missing r.2.1 page = 0 ∧
        ∃ new, Takes G Q s r.2.2 new ∧ new.length = m.missing t page) := by
  obtain ⟨t', heq, hok⟩ := hm.map_to page frame t s hpage hclear
  have hspec := takeFrames_spec (m.missing t page) h
  rw [heq, Option.map_eq_bind]
  refine Returns.bind (P := fun r => s.takeFrames (m.missing t page) = some r ∧ _)
    ⟨fun r hr => ⟨hr, hspec.post r hr⟩, hspec.returns⟩ ?_
  rintro ⟨ok, s'⟩ ⟨htake, ⟨hfalse, hlt⟩ | ⟨htrue, new, htakes, hlen⟩⟩
  · obtain rfl : ok = false := hfalse
    exact .of_eq rfl (.inl ⟨rfl, hlt⟩)
  · obtain rfl : ok = true := htrue
    obtain ⟨hframe, hclear', hmissing⟩ := hok s' htake
    exact .of_eq rfl (.inr ⟨rfl, hframe, hclear', hmissing, new, htakes, hlen⟩)

/-- The pages have frames of their own among those taken, and no other page is touched. -/
structure Backs (m : Mapper τ) (pages : List ℕ) (t t' : τ) (new : List (ℕ × ℕ))
    (frames : List ℕ) : Prop where
  mapped : pages.map (m.frameOf t') = frames.map some
  taken : (frames.reverse.map fun f => (f, 0)).Sublist new
  others : ∀ p ∉ pages, m.frameOf t' p = m.frameOf t p

/-- One more page has its frame before the others. -/
theorem Backs.cons {pages : List ℕ} {t₁ t₂ : τ} {frame : ℕ} {new₁ new₂ : List (ℕ × ℕ)}
    {frames : List ℕ} (h : Backs m pages t₁ t₂ new₂ frames) (hnot : page ∉ pages)
    (hpages : m.frameOf t₁ = Function.update (m.frameOf t) page (some frame)) :
    Backs m (page :: pages) t t₂ (new₂ ++ (new₁ ++ [(frame, 0)])) (frame :: frames) where
  mapped := by
    rw [List.map_cons, h.others page hnot, hpages, Function.update_self, h.mapped, List.map_cons]
  taken := by
    rw [List.reverse_cons, List.map_append]
    exact h.taken.append (List.sublist_append_right new₁ _)
  others p hp := by
    rw [List.mem_cons, not_or] at hp
    rw [h.others p hp.2, hpages, Function.update_of_ne hp.1]

/-- **The loop of `init_heap`**, over pages that share the tables of one of them. -/
theorem mapPages_spec (hm : m.Documented) {pages : List ℕ} {first : ℕ}
    (h : ∃ L B, b.frames.Inv G Q L B) (hshare : ∀ p ∈ pages, first / 512 = p / 512)
    (hclear : m.Clear b.tables first) (hnodup : pages.Nodup)
    (hunmapped : ∀ p ∈ pages, m.frameOf b.tables p = none) :
    Returns G.Mapped (mapPages m pages b) fun r =>
      (r.1 = .error .frameAllocationFailed ∧
        b.frames.alloc.free.ncard < pages.length + m.missing b.tables first) ∨
      (r.1 = .ok () ∧
        (pages ≠ [] → pages.length + m.missing b.tables first ≤ b.frames.alloc.free.ncard) ∧
        ∃ new frames, Takes G Q b.frames r.2.frames new ∧
          Backs m pages b.tables r.2.tables new frames) := by
  induction pages generalizing b with
  | nil =>
    exact .of_eq rfl (.inr ⟨rfl, fun hne => absurd rfl hne, [], [], .refl h, rfl,
      List.Sublist.refl _, fun _ _ => rfl⟩)
  | cons page pages ih =>
    obtain ⟨hnot, hnodup⟩ := List.nodup_cons.mp hnodup
    obtain ⟨hsame, hshare⟩ := List.forall_mem_cons.mp hshare
    obtain ⟨hpage, hunmapped⟩ := List.forall_mem_cons.mp hunmapped
    obtain ⟨hmissing, hclearPage⟩ := hm.shared b.tables first page hsame
    obtain ⟨L, B, hinv⟩ := h
    refine hinv.allocateFrame.bind ?_
    rintro ⟨frame, s₁⟩ (⟨hr, hfree⟩ | ⟨f, L', B', hframe, hinv', hlive, hfree⟩)
    · obtain ⟨rfl, rfl⟩ := Prod.mk.inj hr
      refine .of_eq rfl (.inl ⟨rfl, ?_⟩)
      rw [hfree, List.length_cons]
      omega
    obtain rfl : frame = some f := hframe
    have htakes₁ : Takes G Q b.frames s₁ [(f, 0)] := ⟨⟨L', B', hinv'⟩, hlive, hfree⟩
    refine (mapTo_spec hm htakes₁.inv hpage (hclearPage hclear)).bind ?_
    rintro ⟨e, t₂, s₂⟩ (⟨he, hlt⟩ | ⟨he, hpages₂, hclear₂, hnone, new₂, htakes₂, hlen₂⟩)
    · obtain rfl : e = .error .frameAllocationFailed := he
      refine .of_eq rfl (.inl ⟨rfl, ?_⟩)
      dsimp only at hlt hfree
      rw [List.length_cons]
      omega
    · obtain rfl : e = .ok () := he
      dsimp only at hpages₂ hclear₂ hnone htakes₂ hlen₂ hfree
      have hfree₂ := htakes₂.free
      have hne : ∀ p ∈ pages, p ≠ page := fun p hp heq => hnot (heq ▸ hp)
      obtain ⟨hmissing₂, hclearFirst⟩ := hm.shared t₂ page first hsame.symm
      refine (ih (b := ⟨t₂, s₂⟩) htakes₂.inv hshare (hclearFirst hclear₂) hnodup
        fun p hp => ?_).mono ?_
      · rw [hpages₂, Function.update_of_ne (hne p hp)]
        exact hunmapped p hp
      rintro ⟨e, b₃⟩ (⟨he, hlt⟩ | ⟨he, hle, new₃, frames₃, htakes₃, hbacks⟩)
      · refine .inl ⟨he, ?_⟩
        dsimp only at hlt
        rw [List.length_cons]
        omega
      · refine .inr ⟨he, fun _ => ?_, new₃ ++ (new₂ ++ [(f, 0)]), f :: frames₃,
          (htakes₁.trans htakes₂).trans htakes₃, hbacks.cons hnot hpages₂⟩
        rw [List.length_cons]
        by_cases hnil : pages = []
        · rw [hnil, List.length_nil]
          omega
        · have hrest := hle hnil
          dsimp only at hrest
          omega

/-! ## The heap -/

theorem length_heapPages : heapPages.length = 257 := by
  rw [heapPages, List.length_range']
  decide

/-- All pages of the heap share their tables. -/
theorem heapPages_div {p : ℕ} (hp : p ∈ heapPages) : heapStart / frameSize / 512 = p / 512 := by
  have hrange := List.mem_range'_1.mp hp
  simp only [heapStart, heapSize, frameSize] at hrange ⊢
  omega

variable {a₀ : BuddyAllocator} {offset : ℕ} {regions : List MemoryRegion} {mem : Mem}
  {ops : List Op}

/-- The heap and the page behind it are backed, by distinct frames that were not in use, and no
other page is touched. -/
structure HeapBacked (m : Mapper τ) (s : Sys) (t : τ) (b' : Paging τ) (frames : List ℕ) :
    Prop where
  nodup : frames.Nodup
  mapped : heapPages.map (m.frameOf b'.tables) = frames.map some
  taken : ∀ f ∈ frames, (f, 0) ∈ b'.frames.live ∧ (f, 0) ∉ s.live
  backed : ∀ addr, heapStart ≤ addr → addr < heapStart + heapSize + frameSize →
    ∃ f ∈ frames, m.frameOf b'.tables (addr / frameSize) = some f
  others : ∀ p ∉ heapPages, m.frameOf b'.tables p = m.frameOf t p

/-- **The pages of the heap**, over frames in use. -/
theorem mapPages_heapPages (hm : m.Documented) (h : ∃ L B, s.Inv G Q L B)
    (hclear : m.Clear t (heapStart / frameSize))
    (hunmapped : ∀ p ∈ heapPages, m.frameOf t p = none) :
    Returns G.Mapped (mapPages m heapPages ⟨t, s⟩) fun r =>
      (r.1 = .error .frameAllocationFailed ∧
        s.alloc.free.ncard < 257 + m.missing t (heapStart / frameSize)) ∨
      (r.1 = .ok () ∧ 257 + m.missing t (heapStart / frameSize) ≤ s.alloc.free.ncard ∧
        ∃ frames, HeapBacked m s t r.2 frames) := by
  have hspec := mapPages_spec (b := ⟨t, s⟩) hm h (fun p hp => heapPages_div hp) hclear
    (List.nodup_range' 1) hunmapped
  rw [length_heapPages] at hspec
  refine hspec.mono ?_
  rintro ⟨e, b'⟩ (⟨he, hlt⟩ | ⟨he, hle, new, frames, htakes, hbacks⟩)
  · exact .inl ⟨he, hlt⟩
  · have hne : heapPages ≠ [] := List.ne_nil_of_length_pos (by rw [length_heapPages]; decide)
    obtain ⟨L, B, hinv⟩ := htakes.inv
    have hlive : (new ++ s.live).Nodup := htakes.live ▸ hinv.nodup_live
    obtain ⟨hnew, -, hdisj⟩ := List.nodup_append.mp hlive
    have hframes : (frames.reverse.map fun f => (f, 0)).Nodup := hbacks.taken.nodup hnew
    have hmem : ∀ f ∈ frames, (f, 0) ∈ new := fun f hf => hbacks.taken.subset
      (List.mem_map_of_mem (List.mem_reverse.mpr hf))
    refine .inr ⟨he, hle hne, frames, List.nodup_reverse.mp (List.Nodup.of_map _ hframes),
      hbacks.mapped, fun f hf => ⟨?_, fun hold => ?_⟩, fun addr h1 h2 => ?_, hbacks.others⟩
    · rw [htakes.live]
      exact List.mem_append_left _ (hmem f hf)
    · exact hdisj _ (hmem f hf) _ hold rfl
    · have hpage : addr / frameSize ∈ heapPages := by
        rw [heapPages, List.mem_range'_1]
        simp only [heapStart, heapSize, frameSize] at h1 h2 ⊢
        omega
      have hsome : m.frameOf b'.tables (addr / frameSize) ∈ frames.map some :=
        hbacks.mapped ▸ List.mem_map_of_mem hpage
      obtain ⟨f, hf, heq⟩ := List.mem_map.mp hsome
      exact ⟨f, hf, heq.symm⟩

/-- A usable region of three hundred frames. -/
def threeHundred : List MemoryRegion := [⟨0x100000, 0x22C000, .usable⟩]

theorem buildable_threeHundred : Buildable (usableRegions threeHundred) 0 := by
  refine ⟨by decide, by decide, fun h x _ hx => ?_⟩
  have htotal : tracked (usableRegions threeHundred) = 300 := by decide
  have hbase : lowest (usableRegions threeHundred) = 0x100000 := by decide
  simp only [layoutOf, htotal, hbase, frameSize] at hx ⊢
  omega

/-- They are all free at first. -/
theorem free_threeHundred (hnew : new threeHundred 0 (fun _ => 0) = some a₀) :
    a₀.free.ncard = 300 := by
  obtain ⟨h, hinv⟩ := inv_univ_of_run (by decide) (by decide) hnew
  obtain ⟨L, B, hs⟩ := hinv [] _ (.nil _)
  have htotal : tracked (usableRegions threeHundred) = 300 := by decide
  have hbase : lowest (usableRegions threeHundred) = 0x100000 := by decide
  have hB : B = [] := List.map_eq_nil_iff.mp hs.live.symm
  have husable : ∀ x < 300, x ∈ usableFrames (usableRegions threeHundred) := fun x hx => by
    refine ⟨htotal.symm ▸ hx, ⟨0x100000, 0x22C000, .usable⟩, by decide, ?_⟩
    rw [hbase, MemoryRegion.Has]
    simp only [frameSize]
    omega
  have hframes := hs.freeFrames_eq_ncard_iff.mpr fun x hx => husable x (htotal ▸ hx)
  rw [hs.freeFrames_eq, hB] at hframes
  exact (Option.some.inj hframes).symm.trans htotal

end YontiOs.Buddy
