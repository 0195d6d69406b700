import YontiOs.Allocator.Malloc
import YontiOs.Machinery.Run

/-!
# Allocator/Client — a heap and the clients that use it

The allocator does not know its live allocations; its clients do.  `Sys` is the heap with the list
of what it handed out and has not got back, and `exec` runs one operation: a `malloc`, a `free`, or
a client's store into its own memory.  `Sys.Inv` ties the list to the heap: the live allocations are
the allocated blocks, one each, and fit into them.

Every step keeps it (`exec_inv`), provided `free` is given pointers that stand right behind their
block's header.  `Sys.Allows ask give` says what the clients of a run do, and `run_serves` is the
invariant of such a run.
-/

namespace YontiOs.Tlsf

open TlsfAllocator

/-- A live allocation: what was asked for, what was returned, and the block it was carved from. -/
structure Alloc where
  ptr : ℕ
  size : ℕ
  align : ℕ
  block : ℕ
deriving DecidableEq, Repr

/-- The heap, and the live allocations. -/
structure Sys where
  heap : TlsfAllocator
  live : List Alloc

/-- What clients do. -/
inductive Op where
  | malloc (size align : ℕ)
  | free (ptr : ℕ)
  | store (addr : ℕ) (byte : UInt8)

/-- One operation; `none` is a panic. -/
def Sys.exec (s : Sys) : Op → Option Sys
  | .malloc size align => do
    let (ptr, heap) ← s.heap.malloc size align
    if ptr = 0 then some ⟨heap, s.live⟩
    else some ⟨heap, ⟨ptr, size, align, (s.heap.chosenBlock size align).getD 0⟩ :: s.live⟩
  | .free ptr => do
    some ⟨← s.heap.free ptr, s.live.filter (·.ptr ≠ ptr)⟩
  | .store addr byte =>
    some ⟨{ s.heap with mem := Function.update s.heap.mem addr byte }, s.live⟩

variable {H n t x y : ℕ} {s s' : Sys} {bs bs' X Z : List Block} {L : ℕ × ℕ → List ℕ}
  {al al' : Alloc} {b c : Block} {op : Op} {size align ptr : ℕ}

/-- The allocation sits in the block `b` it was carved from. -/
structure Alloc.Fits (al : Alloc) (b : Block) : Prop where
  used : b.free = false
  ge : al.block + 8 ≤ al.ptr
  le : al.ptr + al.size ≤ al.block + b.size
  dvd : max al.align 8 ∣ al.ptr
  behind : al.ptr = al.block + 8 ↔ max al.align 8 ∣ al.block + 8

/-- **The live allocations are the allocated blocks of a heap at rest.** -/
structure Sys.Inv (H : ℕ) (s : Sys) (bs : List Block) (L : ℕ × ℕ → List ℕ) : Prop where
  rest : AtRest H s.heap bs L
  fits : ∀ al ∈ s.live, ∃ b, (al.block, b) ∈ place H bs ∧ al.Fits b
  distinct : (s.live.map Alloc.block).Nodup
  owned : ∀ x b, (x, b) ∈ place H bs → b.free = false → ∃ al ∈ s.live, al.block = x

/-! ## The allocated blocks under the edits -/

/-- The size of the block an allocation of `t` bytes gets out of `n`. -/
def carvedSize (t n : ℕ) : ℕ := if t + minBlockSize ≤ n then t else n

theorem total_carve (ht : t ≤ n) : total (carve t n) = n := by
  rw [carve]
  split_ifs <;> simp
  omega

/-- Carving adds one allocated block and keeps the others in place. -/
theorem mem_place_carve (ht : t ≤ n) (hb : b.free = false) :
    (x, b) ∈ place H (X ++ carve t n ++ Z) ↔
      (x, b) ∈ place H (X ++ ⟨n, true⟩ :: Z) ∨ x = H + total X ∧ b = ⟨carvedSize t n, false⟩ := by
  have hcarve : ∀ a, (x, b) ∈ place a (carve t n) ↔ x = a ∧ b = ⟨carvedSize t n, false⟩ := by
    intro a
    rw [carve, carvedSize]
    split_ifs
    · simp only [place_cons, place_nil, List.mem_cons, Prod.mk.injEq, List.not_mem_nil, or_false]
      refine ⟨fun h => h.resolve_right fun h => ?_, .inl⟩
      rw [h.2] at hb
      cases hb
    · simp
  have hfree : (x, b) ≠ (H + total X, ⟨n, true⟩) := by
    rintro h
    rw [(Prod.mk.inj h).2] at hb
    cases hb
  simp only [place_append, List.mem_append, place_cons, List.mem_cons, hcarve, total_append,
    total_carve ht, hfree, false_or, add_assoc]
  tauto

/-- Merging the next block into the hole keeps the allocated blocks in place. -/
theorem mem_place_mergeNext {a : ℕ} (hb : b.free = false) :
    (x, b) ∈ place (a + (mergeNext n Z).1) (mergeNext n Z).2 ↔ (x, b) ∈ place (a + n) Z :=
  match Z with
  | [] => Iff.rfl
  | ⟨_, false⟩ :: _ => Iff.rfl
  | ⟨c, true⟩ :: Z => by
    have hne : (x, b) ≠ (a + n, ⟨c, true⟩) := by
      rintro h
      rw [(Prod.mk.inj h).2] at hb
      cases hb
    simp [mergeNext, hne, add_assoc]

/-- Releasing a block takes it away and keeps the other allocated blocks in place. -/
theorem mem_place_release (hb : b.free = false) :
    (x, b) ∈ place H (release X n Z) ↔
      (x, b) ∈ place H X ∨ (x, b) ∈ place (H + total X + n) Z := by
  have hne : ∀ a c, (x, b) ≠ (a, ⟨c, true⟩) := by
    rintro a c h
    rw [(Prod.mk.inj h).2] at hb
    cases hb
  rw [← mem_place_mergeNext hb (a := H + total X), release]
  generalize (mergeNext n Z).1 = n' at *
  generalize (mergeNext n Z).2 = Z' at *
  cases hfree : (X.getLastD sentinel).free with
  | false =>
    rw [mergePrev_of_not_free hfree, place_append, place_cons, List.mem_append, List.mem_cons]
    simp [hne]
  | true =>
    rcases X.eq_nil_or_concat with rfl | ⟨X, ⟨c, fr⟩, rfl⟩
    · cases hfree
    rw [List.concat_eq_append, List.getLastD_concat] at hfree
    subst hfree
    rw [List.concat_eq_append, mergePrev_concat_free, place_append, place_cons, List.mem_append,
      List.mem_cons, place_append]
    simp [hne, add_assoc]

theorem total_mergePrev : total (mergePrev X n).1 + (mergePrev X n).2 = total X + n := by
  cases hfree : (X.getLastD sentinel).free with
  | false => rw [mergePrev_of_not_free hfree]
  | true =>
    rcases X.eq_nil_or_concat with rfl | ⟨X, ⟨c, fr⟩, rfl⟩
    · cases hfree
    rw [List.concat_eq_append, List.getLastD_concat] at hfree
    subst hfree
    rw [List.concat_eq_append, mergePrev_concat_free]
    simp [add_assoc]

theorem total_mergeNext : (mergeNext n Z).1 + total (mergeNext n Z).2 = n + total Z :=
  match Z with
  | [] => rfl
  | ⟨_, false⟩ :: _ => rfl
  | ⟨_, true⟩ :: _ => by simp [mergeNext, add_assoc]

theorem total_release : total (release X n Z) = total X + (n + total Z) := by
  rw [release, total_append, total_cons, ← add_assoc, total_mergePrev, add_assoc, total_mergeNext]

/-! ## Live allocations -/

/-- Live allocations in different blocks do not meet, and keep clear of every header. -/
theorem Alloc.Fits.separate (hal : al.Fits b) (hb : (al.block, b) ∈ place H bs)
    (hc : (y, c) ∈ place H bs) (hne : al.block ≠ y) :
    al.ptr + al.size ≤ y ∨ y + c.size ≤ al.block := by
  have := hal.le
  rcases place_separate hb hc with ⟨h, -⟩ | h | h
  · exact absurd h hne
  · exact .inl (by omega)
  · exact .inr h

/-- A pointer names its allocation. -/
theorem Sys.Inv.block_eq_of_ptr_eq (h : s.Inv H bs L) (hal : al ∈ s.live) (hal' : al' ∈ s.live)
    (hptr : al.ptr = al'.ptr) : al.block = al'.block := by
  obtain ⟨b, hb, hfit⟩ := h.fits al hal
  obtain ⟨b', hb', hfit'⟩ := h.fits al' hal'
  have h1 := hfit.ge
  have h2 := hfit'.ge
  have h3 := hfit'.le
  by_contra hne
  rcases hfit.separate hb hb' hne with h | h <;> omega

/-! ## What clients do -/

section Allows

variable {ask : ℕ → ℕ → Prop} {give : Alloc → Prop}

/-- Clients ask for what `ask` admits, free those of their allocations that `give` admits, and store
into their own memory. -/
def Sys.Allows (ask : ℕ → ℕ → Prop) (give : Alloc → Prop) (s : Sys) : Op → Prop
  | .malloc size align => ask size align
  | .free ptr => ∃ al ∈ s.live, al.ptr = ptr ∧ give al
  | .store addr _ => ∃ al ∈ s.live, al.ptr ≤ addr ∧ addr < al.ptr + al.size

instance [∀ size align, Decidable (ask size align)] [DecidablePred give] (s : Sys) :
    ∀ op, Decidable (s.Allows ask give op)
  | .malloc size align => inferInstanceAs (Decidable (ask size align))
  | .free _ => inferInstanceAs (Decidable (∃ al ∈ s.live, _))
  | .store _ _ => inferInstanceAs (Decidable (∃ al ∈ s.live, _))

/-- Without live allocations clients can only ask. -/
theorem Sys.Allows.malloc_or_live (hok : s.Allows ask give op) :
    (∃ size align, op = .malloc size align) ∨ ∃ al, al ∈ s.live := by
  cases op with
  | malloc size align => exact .inl ⟨size, align, rfl⟩
  | free ptr => exact .inr (hok.imp fun _ h => h.1)
  | store addr byte => exact .inr (hok.imp fun _ h => h.1)

end Allows

/-- `free` is given a pointer that stands right behind its block's header. -/
abbrev Sys.Legal : Sys → Op → Prop := Sys.Allows (fun _ _ => True) fun al => al.ptr = al.block + 8

/-! ## The three steps -/

/-- **The effect of a `malloc` step**: none, or a new live allocation carved from a free block. -/
theorem exec_malloc_cases (h : s.Inv H bs L) (he : s.exec (.malloc size align) = some s') :
    (s' = s ∧ s.heap.malloc size align = some (0, s.heap)) ∨
      ∃ ptr heap a bs' L', s.heap.malloc size align = some (ptr, heap) ∧ ptr ≠ 0 ∧
        s.heap.chosenBlock size align = some a ∧ s' = ⟨heap, ⟨ptr, size, align, a⟩ :: s.live⟩ ∧
        AtRest H heap bs' L' ∧ Carves H bs a size align ptr bs' := by
  simp only [Sys.exec, Option.bind_eq_bind, Option.bind_eq_some_iff] at he
  obtain ⟨⟨ptr, heap⟩, hm, he⟩ := he
  rcases malloc_cases h.rest hm with ⟨-, rfl, rfl⟩ | ⟨a, bs', L', ha, hrest, hcarve, -⟩
  · exact .inl ⟨(Option.some.inj he).symm, hm⟩
  · have h0 : ptr ≠ 0 := by
      have := hcarve.ptr_ge
      omega
    simp only [if_neg h0, ha] at he
    exact .inr ⟨ptr, heap, a, bs', L', hm, h0, ha, (Option.some.inj he).symm, hrest, hcarve⟩

/-- The new allocation fits into the block carved for it. -/
theorem Carves.fits {a : ℕ} (h : Carves H bs a size align ptr bs') (hbs : Sized bs) :
    ∃ n, (a, ⟨n, false⟩) ∈ place H bs' ∧ Alloc.Fits ⟨ptr, size, align, a⟩ ⟨n, false⟩ ∧
      (∀ x b, b.free = false → ((x, b) ∈ place H bs' ↔
        (x, b) ∈ place H bs ∨ x = a ∧ b = ⟨n, false⟩)) ∧
      (∀ b, (a, b) ∈ place H bs → b.free = true) ∧ total bs' = total bs := by
  obtain ⟨X, n, Z, t, rfl, rfl, rfl, h32, htn, hle⟩ := h.exists_carve
  have hsz : t ≤ carvedSize t n := by
    rw [carvedSize]
    split_ifs
    · exact le_rfl
    · exact htn
  refine ⟨carvedSize t n, (mem_place_carve htn rfl).mpr (.inr ⟨rfl, rfl⟩),
    ⟨rfl, h.ptr_ge, by dsimp only; omega, h.ptr_dvd, h.ptr_eq_iff⟩,
    fun x b hb => mem_place_carve htn hb, fun b hb => ?_, ?_⟩
  · rcases place_separate hb mem_place_middle with ⟨-, rfl⟩ | h | h
    · rfl
    · have := (hbs b (place_bounds hb).1).2
      omega
    · dsimp only at h
      omega
  · simp only [total_append, total_cons, total_carve htn]
    omega

theorem exec_malloc_inv (h : s.Inv H bs L) (he : s.exec (.malloc size align) = some s') :
    ∃ bs' L', s'.Inv H bs' L' ∧ total bs' = total bs := by
  rcases exec_malloc_cases h he with ⟨rfl, -⟩ | ⟨ptr, heap, a, bs', L', -, -, -, rfl, hrest, hcarve⟩
  · exact ⟨bs, L, h, rfl⟩
  obtain ⟨n, hplace, hfit, hmem, hfree, htot⟩ := hcarve.fits h.rest.hole.backSized
  refine ⟨bs', L', ⟨hrest, ?_, ?_, fun x b hx hb => ?_⟩, htot⟩
  · rintro al (_ | ⟨_, hal⟩)
    · exact ⟨_, hplace, hfit⟩
    · obtain ⟨b, hb, hfit⟩ := h.fits al hal
      exact ⟨b, (hmem _ b hfit.used).mpr (.inl hb), hfit⟩
  · -- the block was free before, so no live allocation has it
    refine List.nodup_cons.mpr ⟨fun hin => ?_, h.distinct⟩
    obtain ⟨al, hal, heq⟩ := List.mem_map.mp hin
    obtain ⟨b, hb, hfit⟩ := h.fits al hal
    have hused := hfit.used
    dsimp only at heq
    rw [hfree b (heq ▸ hb)] at hused
    cases hused
  · rcases (hmem x b hb).mp hx with hx | ⟨rfl, -⟩
    · obtain ⟨al, hal, heq⟩ := h.owned x b hx hb
      exact ⟨al, List.mem_cons_of_mem _ hal, heq⟩
    · exact ⟨_, List.mem_cons_self, rfl⟩

/-- **A `free` step**: the allocation's block is released. -/
theorem exec_free_inv (h : s.Inv H bs L) (hal : al ∈ s.live) (hbehind : al.ptr = al.block + 8) :
    ∃ s' bs' L', s.exec (.free al.ptr) = some s' ∧ s'.Inv H bs' L' ∧ total bs' = total bs := by
  obtain ⟨⟨sz, fr⟩, hb, hfit⟩ := h.fits al hal
  obtain rfl : fr = false := hfit.used
  obtain ⟨X, Z, rfl, hX⟩ := exists_split_of_mem_place hb
  obtain ⟨heap, L', hfree, hrest, -⟩ := free_spec h.rest
  have hsized := h.rest.hole.backSized
  -- an allocated block of the new layout is one of the old, elsewhere
  have hmem : ∀ x c, c.free = false → ((x, c) ∈ place H (release X sz Z) ↔
      (x, c) ∈ place H (X ++ ⟨sz, false⟩ :: Z) ∧ x ≠ al.block) := by
    intro x c hc
    rw [mem_place_release hc, place_append, place_cons, List.mem_append, List.mem_cons, hX]
    constructor
    · rintro (hx | hx)
      · refine ⟨.inl hx, ?_⟩
        have h1 := (hsized c (List.mem_append_left _ (place_bounds hx).1)).2
        have h2 := (place_bounds hx).2.2
        omega
      · refine ⟨.inr (.inr hx), ?_⟩
        have h1 := (sized_cons.mp (sized_append.mp hsized).2).1.2
        have h2 := (place_bounds hx).2.1
        dsimp only at h1
        omega
    · rintro ⟨hx | hx | hx, hne⟩
      · exact .inl hx
      · exact absurd (Prod.mk.inj hx).1 hne
      · exact .inr hx
  refine ⟨⟨heap, s.live.filter (·.ptr ≠ al.ptr)⟩, _, L', ?_,
    ⟨hrest, fun al' hal' => ?_, ?_, ?_⟩, ?_⟩
  · rw [hbehind, hX]
    simp only [Sys.exec, hfree, Option.bind_eq_bind, Option.bind_some]
  · obtain ⟨hal', hne⟩ := List.mem_filter.mp hal'
    obtain ⟨b, hb', hfit'⟩ := h.fits al' hal'
    refine ⟨b, (hmem _ b hfit'.used).mpr ⟨hb', fun heq => ?_⟩, hfit'⟩
    have : al' = al := List.inj_on_of_nodup_map h.distinct hal' hal heq
    simp [this] at hne
  · exact h.distinct.sublist (List.filter_sublist.map _)
  · intro x c hx hc
    obtain ⟨hx, hne⟩ := (hmem x c hc).mp hx
    obtain ⟨al', hal', rfl⟩ := h.owned x c hx hc
    refine ⟨al', List.mem_filter.mpr ⟨hal', ?_⟩, rfl⟩
    simpa using fun hptr => hne (h.block_eq_of_ptr_eq hal' hal hptr)
  · rw [total_release, total_append, total_cons]

/-- **A client's store** into its own memory is none of the heap's business. -/
theorem exec_store_inv {byte : UInt8} (h : s.Inv H bs L) (hal : al ∈ s.live) (h1 : al.ptr ≤ x)
    (h2 : x < al.ptr + al.size) (he : s.exec (.store x byte) = some s') : s'.Inv H bs L := by
  obtain rfl := Option.some.inj he
  obtain ⟨b, hb, hfit⟩ := h.fits al hal
  have hx : Payload H bs x :=
    ⟨al.block, b, hb, hfit.used, hfit.ge.trans h1, by have := hfit.le; omega⟩
  refine ⟨⟨h.rest.hole.store fun z hz => ?_, h.rest.coalesced⟩, h.fits, h.distinct, h.owned⟩
  exact Function.update_of_ne (fun hzx : z = x => hz (hzx ▸ hx)) _ _

/-- **Every legal step keeps the invariant.** -/
theorem exec_inv (h : s.Inv H bs L) (hl : s.Legal op) (he : s.exec op = some s') :
    ∃ bs' L', s'.Inv H bs' L' ∧ total bs' = total bs := by
  cases op with
  | malloc size align => exact exec_malloc_inv h he
  | free ptr =>
    obtain ⟨al, hal, rfl, hbehind⟩ := hl
    obtain ⟨s'', bs', L', he', hinv, htot⟩ := exec_free_inv h hal hbehind
    obtain rfl := Option.some.inj (he.symm.trans he')
    exact ⟨bs', L', hinv, htot⟩
  | store addr byte =>
    obtain ⟨al, hal, h1, h2⟩ := hl
    exact ⟨bs, L, exec_store_inv h hal h1 h2 he, rfl⟩

/-! ## Runs -/

section Runs

variable {ask : ℕ → ℕ → Prop} {give : Alloc → Prop} {ops : List Op}

/-- The heap of `n` bytes is in order, and what its clients have was asked for as `ask` admits. -/
def Sys.Serves (ask : ℕ → ℕ → Prop) (H n : ℕ) (s : Sys) : Prop :=
  (∃ bs L, s.Inv H bs L ∧ total bs = n) ∧ ∀ al ∈ s.live, ask al.size al.align

/-- What clients ask for so, and may free, stands right behind its header. -/
def Behind (H : ℕ) (ask : ℕ → ℕ → Prop) (give : Alloc → Prop) : Prop :=
  ∀ s bs L al, Sys.Inv H s bs L → al ∈ s.live → ask al.size al.align → give al →
    al.ptr = al.block + 8

theorem Sys.Serves.legal (h : s.Serves ask H n) (hbehind : Behind H ask give)
    (hok : s.Allows ask give op) : s.Legal op := by
  obtain ⟨⟨bs, L, hinv, -⟩, hask⟩ := h
  cases op with
  | malloc size align => trivial
  | free ptr =>
    obtain ⟨al, hal, rfl, hgive⟩ := hok
    exact ⟨al, hal, rfl, hbehind s bs L al hinv hal (hask al hal) hgive⟩
  | store addr byte => exact hok

/-- **One step of such clients**: a new allocation was asked for as `ask` admits. -/
theorem Sys.Serves.exec (h : s.Serves ask H n) (hbehind : Behind H ask give)
    (hok : s.Allows ask give op) (he : s.exec op = some s') : s'.Serves ask H n := by
  have hlegal := h.legal hbehind hok
  obtain ⟨⟨bs, L, hinv, htot⟩, hask⟩ := h
  obtain ⟨bs', L', hinv', htot'⟩ := exec_inv hinv hlegal he
  refine ⟨⟨bs', L', hinv', htot'.trans htot⟩, ?_⟩
  cases op with
  | malloc size align =>
    rcases exec_malloc_cases hinv he with ⟨rfl, -⟩ | ⟨ptr, heap, a, -, -, -, -, -, rfl, -⟩
    · exact hask
    · exact List.forall_mem_cons.mpr ⟨hok, hask⟩
  | free ptr =>
    simp only [Sys.exec, Option.bind_eq_bind, Option.bind_eq_some_iff] at he
    obtain ⟨heap, -, he⟩ := he
    obtain rfl := Option.some.inj he
    exact fun al hal => hask al (List.mem_filter.mp hal).1
  | store addr byte =>
    obtain rfl := Option.some.inj he
    exact hask

/-- **Every run of such clients** keeps the heap in order, and its size. -/
theorem run_serves (hbehind : Behind H ask give)
    (hrun : Run Sys.exec (Sys.Allows ask give) s ops s') (hs : s.Serves ask H n) :
    s'.Serves ask H n :=
  hrun.invariant (P := Sys.Serves ask H n) (fun _ _ _ h hok he => h.exec hbehind hok he) hs

/-- A small alignment puts the pointer right behind the header. -/
theorem Sys.Inv.behind (h : s.Inv H bs L) (hal : al ∈ s.live) (h8 : al.align ≤ 8) :
    al.ptr = al.block + 8 := by
  obtain ⟨b, hb, hfit⟩ := h.fits al hal
  refine hfit.behind.mpr ?_
  have := h.rest.hole.backSized.place_mod h.rest.hole.region.aligned hb
  rw [max_eq_right h8]
  omega

theorem behind_of_align_le (h : ∀ al : Alloc, ask al.size al.align → give al → al.align ≤ 8) :
    Behind H ask give :=
  fun _ _ _ al hinv hal hask hgive => hinv.behind hal (h al hask hgive)

end Runs

/-- A fresh heap has no live allocation. -/
theorem init_inv (mem : Mem) (h0 : 0 < H) (h8 : H % 8 = 0) (hn : n % 8 = 0) (h32 : 32 ≤ n)
    (hsmall : n < 2 ^ 32) (hfits : H + n < 2 ^ 64) :
    ∃ heap, (new mem).init H n = some heap ∧
      ∃ bs L, Sys.Inv H ⟨heap, []⟩ bs L ∧ total bs = n := by
  obtain ⟨heap, L, hinit, hrest⟩ := init_spec mem h0 h8 hn h32 hsmall hfits
  refine ⟨heap, hinit, _, L, ⟨hrest, (fun _ h => nomatch h), List.nodup_nil, ?_⟩, rfl⟩
  intro x b hx hb
  obtain ⟨-, rfl⟩ := Prod.mk.inj (List.mem_singleton.mp hx)
  cases hb

end YontiOs.Tlsf
