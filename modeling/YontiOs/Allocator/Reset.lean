import YontiOs.Allocator.Soundness

/-!
# Allocator/Reset — a heap with nothing allocated is as good as new

A coalesced heap without allocated blocks is one free block.  So when the last allocation of a run
is freed, in whatever order, the allocator is back in the shape `init` gave it (`postInit_of_run`).
-/

namespace YontiOs.Tlsf

open TlsfAllocator DList

variable {H n : ℕ} {s : Sys} {heap : TlsfAllocator} {bs : List Block} {L : ℕ × ℕ → List ℕ}

/-- **The shape `init` leaves**: one free block between its header and the sentinel, alone on the
list of its class, and one bit in each bitmap level. -/
structure PostInit (heap : TlsfAllocator) (H n : ℕ) : Prop where
  start : heap.heapStart = H
  stop : heap.heapEnd = H + n
  block : (header heap.mem H).size = n ∧ (header heap.mem H).isFree = true ∧
    (header heap.mem H).prevIsFree = false ∧ (header heap.mem H).prevPhysSize = 0
  sentinel : (header heap.mem (H + n)).size = 0 ∧ (header heap.mem (H + n)).isFree = false ∧
    (header heap.mem (H + n)).prevIsFree = true ∧
    (header heap.mem (H + n)).prevPhysSize.toNat = n
  listed : ∃ f k, mapping n = some (f, k) ∧
    (∀ f' k', heap.freeLists f' k' = if (f', k') = (f, k) then some H else none) ∧
    node heap.mem (nodeOf H) = ⟨none, none⟩ ∧ heap.flBitmap = 1#32 <<< f ∧
    ∀ f', heap.slBitmaps f' = if f' = f then 1#32 <<< k else 0#32

/-- **A coalesced heap without allocated blocks is one free block.** -/
theorem Coalesced.eq_singleton (h : Coalesced bs) (hfree : ∀ b ∈ bs, b.free = true)
    (htot : total bs = n) (hn : n ≠ 0) : bs = [⟨n, true⟩] := by
  match bs, h, hfree with
  | [], _, _ => exact absurd htot.symm hn
  | [⟨sz, fr⟩], _, hfree =>
    obtain rfl : fr = true := hfree _ List.mem_cons_self
    obtain rfl : sz = n := by simpa using htot
    rfl
  | b :: c :: bs, h, hfree =>
    refine absurd ⟨hfree b List.mem_cons_self, hfree c (by simp)⟩ (List.isChain_cons_cons.mp h).1

/-- The lists of a heap of one block. -/
theorem AtRest.lists_singleton (h : AtRest H heap [⟨n, true⟩] L) :
    ∃ f k, mapping n = some (f, k) ∧ ∀ c, L c = if c = (f, k) then [H] else [] := by
  have hreg := h.hole.region
  have hsize := (sized_cons.mp h.hole.backSized).1.2
  have hsmall : n < 2 ^ 32 := by simpa using hreg.small
  obtain ⟨f, k, hm⟩ := mapping_isSome (n := n) (by dsimp only at hsize; omega) (by omega)
  have hmem : ∀ c a, a ∈ L c ↔ a = H ∧ c = (f, k) := by
    rintro ⟨f', k'⟩ a
    rw [h.hole.lists]
    simp only [place_nil, place_cons, List.not_mem_nil, false_or, List.mem_singleton, total_nil,
      add_zero, Prod.mk.injEq, Block.mk.injEq, and_true]
    constructor
    · rintro ⟨_, ⟨rfl, rfl⟩, hm'⟩
      exact ⟨rfl, Prod.mk.inj (Option.some.inj (hm'.symm.trans hm))⟩
    · rintro ⟨rfl, rfl, rfl⟩
      exact ⟨n, ⟨rfl, rfl⟩, hm⟩
  refine ⟨f, k, hm, fun c => ?_⟩
  split_ifs with hc
  · have hperm := (List.perm_ext_iff_of_nodup (h.hole.index.threads.table.nodup c)
      (List.nodup_singleton H)).mpr fun a => by rw [hmem, List.mem_singleton, and_iff_left hc]
    exact List.perm_singleton.mp hperm
  · exact List.eq_nil_iff_forall_not_mem.mpr fun a ha => hc ((hmem c a).mp ha).2

/-- A word with one bit set. -/
theorem eq_one_shiftLeft {x : BitVec 32} {i : ℕ} (hi : i < 32)
    (h : ∀ j, x.getLsbD j = true ↔ j = i) : x = 1#32 <<< i := by
  refine BitVec.eq_of_getLsbD_eq fun j _ => ?_
  rw [Word.getLsbD_one_shiftLeft hi, Bool.eq_iff_iff, h, decide_eq_true_eq]

/-- **A heap at rest with one free block has the shape `init` leaves.** -/
theorem AtRest.postInit (h : AtRest H heap [⟨n, true⟩] L) : PostInit heap H n := by
  have hreg := h.hole.region
  have hsize := (sized_cons.mp h.hole.backSized).1
  have hsmall : n < 2 ^ 32 := by simpa using hreg.small
  dsimp only at hsize
  obtain ⟨f, k, hm, hL⟩ := h.lists_singleton
  obtain ⟨hf, hk⟩ := mapping_range hm
  have hback := h.hole.back
  simp only [total_nil, add_zero, List.cons_append, List.nil_append] at hback
  obtain ⟨hfirst, hlast, -⟩ := hback
  dsimp only at hfirst hlast
  have hlist : L (f, k) = [H] := by rw [hL, if_pos rfl]
  have hne : ∀ f' k', L (f', k') ≠ [] ↔ f' = f ∧ k' = k := fun f' k' => by
    rw [hL]
    split_ifs with hc
    · simpa using hc
    · simpa using hc
  have hsl : ∀ f', heap.slBitmaps f' = if f' = f then 1#32 <<< k else 0#32 := fun f' => by
    split_ifs with hf'
    · exact eq_one_shiftLeft hk fun j => by rw [h.hole.index.roots.slBit, hne, and_iff_right hf']
    · refine BitVec.eq_of_getLsbD_eq fun j _ => ?_
      rw [BitVec.getLsbD_zero, ← Bool.not_eq_true, h.hole.index.roots.slBit, hne]
      exact fun hc => hf' hc.1
  refine ⟨hreg.start, by simpa using hreg.stop, ?_, ?_, f, k, hm, fun f' k' => ?_, ?_, ?_, hsl⟩
  · rw [hfirst]
    exact ⟨size_tagged (by omega) hsmall, isFree_tagged (by omega),
      prevIsFree_tagged (by omega), rfl⟩
  · rw [hlast]
    exact ⟨size_tagged rfl (by decide), isFree_tagged rfl, prevIsFree_tagged rfl,
      prevPhysSize_tagged hsmall⟩
  · rw [h.hole.index.roots.head, hL]
    split_ifs <;> rfl
  · have hlinked := h.hole.index.threads.table.linked (f, k)
    rw [hlist] at hlinked
    obtain ⟨hprev, hnext, -⟩ := hlinked
    rw [prevOf] at hprev
    rw [nextOf] at hnext
    generalize node heap.mem (nodeOf H) = v at *
    obtain ⟨prev, next⟩ := v
    exact congrArg₂ FreeNode.mk hprev hnext
  · refine eq_one_shiftLeft (by simp only [flCount] at hf; omega) fun j => ?_
    rw [h.hole.index.roots.flBit, hsl]
    split_ifs with hj
    · rw [iff_true_right hj, Word.ne_zero_iff]
      exact ⟨k, by rw [Word.getLsbD_one_shiftLeft (w := 32) hk, decide_eq_true rfl]⟩
    · simp [hj]

/-- **Nothing fragments for good**: whenever no allocation is live, whatever was allocated before
and in whatever order it was freed, the allocator is in the shape `init` left it in. -/
theorem postInit_of_run (mem : Mem) (h0 : H ≠ 0) (h8 : H % 8 = 0) (hn : n % 8 = 0) (h32 : 32 ≤ n)
    (hsmall : n < 2 ^ 32) (hfits : H + n ≤ 2 ^ 63) :
    ∃ heap, (new mem).init H n = some heap ∧ PostInit heap H n ∧
      ∀ ops s, Run Sys.exec Sys.SmallAligned ⟨heap, []⟩ ops s → s.live = [] →
        PostInit s.heap H n := by
  obtain ⟨heap, hinit, hfresh⟩ :=
    init_inv mem (Nat.pos_of_ne_zero h0) h8 hn h32 hsmall (by omega : H + n < 2 ^ 64)
  have hall : ∀ ops s, Run Sys.exec Sys.SmallAligned ⟨heap, []⟩ ops s → s.live = [] →
      PostInit s.heap H n := fun ops s hrun hlive => by
    obtain ⟨⟨bs, L, hinv, htot⟩, -⟩ :=
      run_serves behind_of_smallAligned hrun ⟨hfresh, fun _ h => nomatch h⟩
    have hfree : ∀ b ∈ bs, b.free = true := fun b hb => by
      obtain ⟨xs, ys, rfl⟩ := List.append_of_mem hb
      by_contra hused
      obtain ⟨al, hal, -⟩ := hinv.owned _ b mem_place_middle (Bool.not_eq_true _ ▸ hused)
      rw [hlive] at hal
      cases hal
    obtain rfl := hinv.rest.coalesced.eq_singleton hfree htot (by omega)
    exact hinv.rest.postInit
  exact ⟨heap, hinit, hall [] _ (.nil _) rfl, hall⟩

theorem postInit_of_run_kilobyte :
    ∃ heap s, (new fun _ => 0xcc).init 4096 1024 = some heap ∧
      Run Sys.exec Sys.SmallAligned ⟨heap, []⟩
        [.malloc 40 8, .malloc 64 8, .malloc 1 1, .free 4152, .free 4104, .free 4224] s ∧
      PostInit s.heap 4096 1024 := by
  have heval : (((new fun _ => 0xcc).init 4096 1024).bind fun heap =>
      (runFrom Sys.exec Sys.SmallAligned ⟨heap, []⟩
        [.malloc 40 8, .malloc 64 8, .malloc 1 1, .free 4152, .free 4104, .free 4224]).map Sys.live)
      = some [] := by decide +kernel
  simp only [Option.bind_eq_some_iff, Option.map_eq_some_iff] at heval
  obtain ⟨heap, hinit, s, hgo, hlive⟩ := heval
  obtain ⟨heap', hinit', -, hall⟩ := postInit_of_run (H := 4096) (n := 1024) (fun _ => 0xcc)
    (by decide) (by decide) (by decide) (by decide) (by decide) (by decide)
  obtain rfl := Option.some.inj (hinit.symm.trans hinit')
  exact ⟨heap, s, hinit, Run.of_runFrom hgo, hall _ s (Run.of_runFrom hgo) hlive⟩

end YontiOs.Tlsf
