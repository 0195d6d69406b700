import YontiOs.Allocator.RoundTrip

/-!
# Allocator/Frame — what the allocator writes, and what it leaves to its clients

Every byte `malloc` or `free` changes is in a header, in the sentinel, or in a block that is free or
is being freed (`Scratch`); so no byte of another client's allocation changes
(`client_data_kept`).
-/

namespace YontiOs.Tlsf

open TlsfAllocator

variable {H n x sz ptr size align : ℕ} {s : Sys} {heap heap' : TlsfAllocator} {bs X Z : List Block}
  {L : ℕ × ℕ → List ℕ} {b : Block} {al al' : Alloc} {op : Op} {ops : List Op}

/-- A byte of a header met by the walk `l`, of the sentinel, or of a free block. -/
def Scratch (heap : TlsfAllocator) (l : List ℕ) (x : ℕ) : Prop :=
  (∃ a ∈ l ++ [heap.heapEnd], a ≤ x ∧ x < a + headerSize) ∨
    ∃ a ∈ l, (header heap.mem a).isFree = true ∧ a ≤ x ∧ x < a + (header heap.mem a).size

/-! ## The bytes of a layout -/

/-- A byte of the heap is in one of its blocks. -/
theorem exists_place_of_lt (h1 : H ≤ x) (h2 : x < H + total bs) :
    ∃ y b, (y, b) ∈ place H bs ∧ y ≤ x ∧ x < y + b.size := by
  induction bs generalizing H with
  | nil =>
    rw [total_nil] at h2
    omega
  | cons b bs ih =>
    rw [total_cons] at h2
    rcases Nat.lt_or_ge x (H + b.size) with hlt | hge
    · exact ⟨H, b, List.mem_cons_self, h1, hlt⟩
    · obtain ⟨y, c, hy, hle, hlt⟩ := ih hge (by omega)
      exact ⟨y, c, List.mem_cons_of_mem _ hy, hle, hlt⟩

/-- **What is not kept is scratch.** -/
theorem AtRest.scratch (h : AtRest H heap bs L) (hx : ¬ Kept H [] 0 bs x) :
    Scratch heap ((place H bs).map Prod.fst) x := by
  have hstop : heap.heapEnd = H + total bs := by simpa using h.hole.region.stop
  simp only [Kept, total_nil, add_zero, payload_nil, false_or, not_or, not_lt, not_le] at hx
  obtain ⟨hpay, hlo, hhi⟩ := hx
  rcases Nat.lt_or_ge x (H + total bs) with hlt | hge
  · obtain ⟨y, b, hy, h1, h2⟩ := exists_place_of_lt hlo hlt
    have hmem : y ∈ (place H bs).map Prod.fst := List.mem_map.mpr ⟨_, hy, rfl⟩
    obtain ⟨hsize, hfree⟩ := h.header_place hy
    cases hb : b.free with
    | true => exact .inr ⟨y, hmem, hfree.trans hb, h1, hsize.symm ▸ h2⟩
    | false =>
      refine .inl ⟨y, List.mem_append_left _ hmem, h1, ?_⟩
      by_contra hno
      exact hpay ⟨y, b, hy, hb, by simpa [headerSize] using hno, h2⟩
  · exact .inl ⟨heap.heapEnd, by simp, hstop ▸ hge, by simpa [hstop, headerSize] using hhi⟩

/-- Outside a block, its being allocated makes no difference. -/
theorem kept_of_notMem (hx : x < H + total X ∨ H + total X + sz ≤ x)
    (hk : Kept H [] 0 (X ++ ⟨sz, false⟩ :: Z) x) : Kept H X sz Z x := by
  rw [← kept_zero] at hk
  simp only [Kept, payload_cons, total_cons, add_zero] at hk ⊢
  rcases hk with (hk | hk | hk) | hk
  · exact .inl (.inl hk)
  · omega
  · exact .inl (.inr hk)
  · exact .inr (by omega)

/-! ## One call -/

/-- The bytes of a live allocation are payload. -/
theorem Sys.Inv.payload (h : s.Inv H bs L) (hal : al ∈ s.live) (h1 : al.ptr ≤ x)
    (h2 : x < al.ptr + al.size) : Payload H bs x := by
  obtain ⟨b, hb, hfit⟩ := h.fits al hal
  have hge := hfit.ge
  have hle := hfit.le
  exact ⟨al.block, b, hb, hfit.used, by omega, by omega⟩

theorem Sys.Inv.malloc_frame (h : s.Inv H bs L)
    (hm : s.heap.malloc size align = some (ptr, heap')) :
    (∀ al ∈ s.live, ∀ x, al.ptr ≤ x → x < al.ptr + al.size → heap'.mem x = s.heap.mem x) ∧
      ∀ x, heap'.mem x ≠ s.heap.mem x → Scratch s.heap ((place H bs).map Prod.fst) x := by
  rcases malloc_cases h.rest hm with ⟨-, -, rfl⟩ | ⟨a, bs', L', -, -, -, hk⟩
  · exact ⟨fun _ _ _ _ _ => rfl, fun x hx => absurd rfl hx⟩
  · exact ⟨fun al hal x h1 h2 => hk x (.inl (.inr (h.payload hal h1 h2))),
      fun x hx => h.rest.scratch fun hkept => hx (hk x hkept)⟩

theorem Sys.Inv.free_frame (h : s.Inv H bs L) (hal : al ∈ s.live)
    (hbehind : al.ptr = al.block + 8) :
    ∃ heap', s.heap.free al.ptr = some heap' ∧
      (∀ al' ∈ s.live, al'.ptr ≠ al.ptr → ∀ x, al'.ptr ≤ x → x < al'.ptr + al'.size →
        heap'.mem x = s.heap.mem x) ∧
      ∀ x, heap'.mem x ≠ s.heap.mem x → Scratch s.heap ((place H bs).map Prod.fst) x ∨
        (al.block ≤ x ∧ x < al.block + (header s.heap.mem al.block).size) := by
  obtain ⟨⟨sz, fr⟩, hb, hfit⟩ := h.fits al hal
  obtain rfl : fr = false := hfit.used
  have hsize : (header s.heap.mem al.block).size = sz := (h.rest.header_place hb).1
  obtain ⟨X, Z, rfl, hX⟩ := exists_split_of_mem_place hb
  obtain ⟨heap', -, hfree, -, hk⟩ := free_spec h.rest
  refine ⟨heap', by rw [hbehind, hX, hfree], fun al' hal' hne x h1 h2 => ?_, fun x hx => ?_⟩
  · -- another allocation's bytes are in another block
    obtain ⟨b', hb', hfit'⟩ := h.fits al' hal'
    have hblock : al'.block ≠ al.block := fun heq =>
      hne (congrArg Alloc.ptr (List.inj_on_of_nodup_map h.distinct hal' hal heq))
    have hge := hfit'.ge
    have hsep := hfit'.separate hb' hb hblock
    dsimp only at hsep
    refine hk x (kept_of_notMem (by omega) (.inl (.inr (h.payload hal' h1 h2))))
  · by_cases hin : al.block ≤ x ∧ x < al.block + sz
    · exact .inr (hsize.symm ▸ hin)
    · exact .inl (h.rest.scratch fun hkept => hx (hk x (kept_of_notMem (by omega) hkept)))

/-! ## Runs -/

/-- **The allocator leaves its clients' data alone**, in every state a run reaches: `malloc` changes
no byte of a live allocation, `free` none of another one, and both write in headers, free blocks and
the sentinel only, `free` also in the block it frees. -/
theorem client_data_kept (mem : Mem) (h8 : H % 8 = 0) (hn : n % 8 = 0)
    (hinit : (new mem).init H n = some heap) (hrun : Run Sys.exec Sys.AnyAligned ⟨heap, []⟩ ops s) :
    ∃ l, Walk s.heap.mem s.heap.heapStart l s.heap.heapEnd ∧
      (∀ size align ptr heap', s.heap.malloc size align = some (ptr, heap') →
        (∀ al ∈ s.live, ∀ x, al.ptr ≤ x → x < al.ptr + al.size → heap'.mem x = s.heap.mem x) ∧
          ∀ x, heap'.mem x ≠ s.heap.mem x → Scratch s.heap l x) ∧
      ∀ al ∈ s.live, al.align ≤ 8 → ∃ heap', s.heap.free al.ptr = some heap' ∧
        (∀ al' ∈ s.live, al'.ptr ≠ al.ptr → ∀ x, al'.ptr ≤ x → x < al'.ptr + al'.size →
          heap'.mem x = s.heap.mem x) ∧
        ∀ x, heap'.mem x ≠ s.heap.mem x → Scratch s.heap l x ∨
          (al.block ≤ x ∧ x < al.block + (header s.heap.mem al.block).size) := by
  rcases run_cases h8 hn hinit behind_of_smallFrees hrun with
    ⟨-, htiny, rfl⟩ | ⟨bs, L, hinv, -⟩
  · -- too small for a block: nothing is ever live, and nothing changes
    refine ⟨[H], init_walk hinit hn, fun _ _ _ _ hm => ?_, fun _ hal => nomatch hal⟩
    obtain ⟨-, rfl⟩ := htiny.malloc hm
    exact ⟨fun _ _ _ _ _ => rfl, fun x hx => absurd rfl hx⟩
  · exact ⟨_, hinv.rest.walk, fun _ _ _ _ hm => hinv.malloc_frame hm,
      fun al hal h8 => hinv.free_frame hal (hinv.behind hal h8)⟩

theorem client_data_kept_kilobyte :
    ∃ heap s heap', (new fun _ => 0).init 4096 1024 = some heap ∧
      Run Sys.exec Sys.AnyAligned ⟨heap, []⟩ [.malloc 40 8, .malloc 64 32, .store 4160 0xaa] s ∧
      s.heap.free 4104 = some heap' ∧ ∀ x, 4160 ≤ x → x < 4224 → heap'.mem x = s.heap.mem x := by
  have heval : (((new fun _ => 0).init 4096 1024).bind fun heap =>
      (runFrom Sys.exec Sys.AnyAligned ⟨heap, []⟩
        [.malloc 40 8, .malloc 64 32, .store 4160 0xaa]).map Sys.live)
      = some [⟨4160, 64, 32, 4144⟩, ⟨4104, 40, 8, 4096⟩] := by decide +kernel
  simp only [Option.bind_eq_some_iff, Option.map_eq_some_iff] at heval
  obtain ⟨heap, hinit, s, hgo, hlive⟩ := heval
  have hrun := Run.of_runFrom hgo
  obtain ⟨l, -, -, hfree⟩ := client_data_kept _ (by decide) (by decide) hinit hrun
  obtain ⟨heap', hfree, hkept, -⟩ := hfree ⟨4104, 40, 8, 4096⟩ (by simp [hlive]) (by decide)
  exact ⟨heap, s, heap', hinit, hrun, hfree, hkept ⟨4160, 64, 32, 4144⟩
    (by simp [hlive]) (by decide)⟩

end YontiOs.Tlsf
