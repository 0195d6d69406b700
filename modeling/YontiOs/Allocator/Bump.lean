import YontiOs.Allocator.Malloc
import YontiOs.Machinery.Layout
import YontiOs.Machinery.Packing
import YontiOs.Machinery.Run

/-!
# Allocator/Bump — the bump heap

`BumpAllocator` hands out memory upwards and counts its allocations; when the count is back at zero
it starts over.  So what it hands out is apart not only from what is live but from everything handed
out since the heap was last empty (`issued`): memory comes back all at once or not at all.
-/

namespace YontiOs.Bump

structure BumpAllocator where
  heapStart : ℕ
  heapEnd : ℕ
  next : ℕ
  allocations : ℕ
deriving DecidableEq, Repr

namespace BumpAllocator

def new : BumpAllocator := ⟨0, 0, 0, 0⟩

/-- `init(heap_start, heap_size)`. -/
def init (b : BumpAllocator) (heapStart heapSize : ℕ) : Option BumpAllocator := do
  some { b with
    heapStart := heapStart
    heapEnd := ← Word.add heapStart heapSize
    next := heapStart }

/-- `alloc(layout)`: a pointer, null if the heap's end is in the way. -/
def alloc (b : BumpAllocator) (layout : Layout) : Option (ℕ × BumpAllocator) := do
  let allocStart ← alignUp b.next layout.align
  match Word.add allocStart layout.size with
  | none => some (0, b)
  | some allocEnd =>
    if b.heapEnd < allocEnd then some (0, b)
    else
      let allocations ← Word.add b.allocations 1
      some (allocStart, { b with next := allocEnd, allocations := allocations })

/-- `dealloc(ptr, layout)`, which reads neither. -/
def dealloc (b : BumpAllocator) : Option BumpAllocator := do
  let allocations ← Word.sub b.allocations 1
  some { b with
    allocations := allocations
    next := if allocations = 0 then b.heapStart else b.next }

end BumpAllocator

/-! ## Clients -/

/-- An allocation, live or not. -/
structure Alloc where
  ptr : ℕ
  layout : Layout
deriving DecidableEq, Repr

def Alloc.extent (a : Alloc) : Extent := ⟨a.ptr, a.layout.size⟩

/-- The heap, the live allocations, and all those made since the heap was last empty. -/
structure Sys where
  heap : BumpAllocator
  live : List Alloc
  issued : List Alloc
deriving DecidableEq, Repr

/-- What clients do. -/
inductive Op where
  | alloc (layout : Layout)
  | dealloc (a : Alloc)

/-- One operation; `none` is a panic. -/
def Sys.exec (s : Sys) : Op → Option Sys
  | .alloc layout => do
    let (ptr, heap) ← s.heap.alloc layout
    if ptr = 0 then some { s with heap := heap }
    else some ⟨heap, ⟨ptr, layout⟩ :: s.live, ⟨ptr, layout⟩ :: s.issued⟩
  | .dealloc a => do
    let heap ← s.heap.dealloc
    some ⟨heap, s.live.erase a, if s.live.erase a = [] then [] else s.issued⟩

/-- Clients ask for some memory, and give back live allocations. -/
def Sys.Owns (s : Sys) : Op → Prop
  | .alloc layout => 0 < layout.size
  | .dealloc a => a ∈ s.live

instance (s : Sys) : ∀ op, Decidable (s.Owns op)
  | .alloc layout => inferInstanceAs (Decidable (0 < layout.size))
  | .dealloc a => inferInstanceAs (Decidable (a ∈ s.live))

/-! ## The invariant -/

variable {H n : ℕ} {b heap : BumpAllocator} {s s' : Sys} {op : Op} {ops : List Op} {layout : Layout}
  {a : Alloc}

/-- Where the last allocation since the heap was empty ends. -/
def Sys.top (H : ℕ) (s : Sys) : ℕ := (s.issued.head?.map fun a => a.extent.stop).getD H

/-- **Everything handed out since the heap was last empty lies side by side below `next`**, and
what is live is a part of it. -/
structure Sys.Inv (H n : ℕ) (s : Sys) : Prop where
  start : s.heap.heapStart = H
  stop : s.heap.heapEnd = H + n
  next_le : s.heap.next ≤ H + n
  next_eq : s.heap.next = s.top H
  packed : Packed H s.heap.next (s.issued.map Alloc.extent)
  dvd : ∀ a ∈ s.issued, a.layout.align ∣ a.ptr
  length_le : H + s.issued.length ≤ s.heap.next
  live : s.live.Sublist s.issued
  count : s.heap.allocations = s.live.length
  empty : s.live = [] → s.issued = []

theorem init_inv (hinit : BumpAllocator.new.init H n = some heap) : Sys.Inv H n ⟨heap, [], []⟩ := by
  obtain ⟨stop, hstop, heap⟩ := Option.bind_eq_some_iff.mp hinit
  obtain ⟨rfl, -⟩ := Word.add_eq_some hstop
  obtain rfl := Option.some.inj heap
  exact ⟨rfl, rfl, Nat.le_add_right _ _, rfl, ⟨fun _ h => absurd h List.not_mem_nil, .nil⟩,
    fun _ h => absurd h List.not_mem_nil, le_rfl, .slnil, rfl, fun _ => rfl⟩

/-- A layout of some memory leaves room for the rounding. -/
theorem align_le (h : 0 < layout.size) : layout.align ≤ 2 ^ 62 := by
  have hfits := layout.fits
  obtain ⟨k, hk⟩ := layout.pow2
  rw [hk] at hfits ⊢
  refine Nat.pow_le_pow_right (by decide) ?_
  have : k < 63 := (Nat.pow_lt_pow_iff_right (by decide : 1 < 2)).mp (by omega)
  omega

/-- **What `alloc` returns**: the next aligned address, or null if the allocation would go past the
end of the heap. -/
theorem alloc_spec (hnext : b.next ≤ 2 ^ 63) (hend : b.heapEnd < 2 ^ 64)
    (hcount : b.allocations + 1 < 2 ^ 64) (hsize : 0 < layout.size) :
    ∃ p, alignUp b.next layout.align = some p ∧ b.next ≤ p ∧ layout.align ∣ p ∧
      b.alloc layout = some (if b.heapEnd < p + layout.size then (0, b)
        else (p, { b with next := p + layout.size, allocations := b.allocations + 1 })) := by
  have halign := align_le hsize
  obtain ⟨j, hj⟩ := layout.pow2
  have hup := alignUp_two_pow (a := b.next) (j := j) (by rw [← hj]; omega)
  rw [← hj] at hup
  obtain ⟨-, -, hdvd, hge, -⟩ := alignUp_eq_some hup
  refine ⟨_, hup, hge, hdvd, ?_⟩
  rw [BumpAllocator.alloc, hup, Option.bind_eq_bind, Option.bind_some, Word.add]
  generalize (b.next + layout.align - 1) / layout.align * layout.align = p at *
  by_cases hlt : p + layout.size < 2 ^ 64
  · rw [if_pos hlt]
    dsimp only
    split_ifs with hpast
    · rfl
    · rw [Word.add_of_lt hcount, Option.bind_some]
  · rw [if_neg hlt, if_pos (by omega)]

/-- The heap has room in its counter, as every allocation takes a byte. -/
theorem Sys.Inv.count_lt (h : s.Inv H n) (hn : H + n ≤ 2 ^ 63) :
    s.heap.allocations + 1 < 2 ^ 64 := by
  have h1 := h.length_le
  have h2 := h.next_le
  have h3 := h.live.length_le
  rw [h.count]
  omega

theorem Sys.Inv.alloc_spec (h : s.Inv H n) (hn : H + n ≤ 2 ^ 63) (hsize : 0 < layout.size) :
    ∃ p, alignUp s.heap.next layout.align = some p ∧ s.heap.next ≤ p ∧ layout.align ∣ p ∧
      s.heap.alloc layout = some (if H + n < p + layout.size then (0, s.heap)
        else (p, { s.heap with
          next := p + layout.size, allocations := s.heap.allocations + 1 })) := by
  have hend := h.stop
  rw [← hend]
  exact Bump.alloc_spec (h.next_le.trans hn) (by omega) (h.count_lt hn) hsize

/-- **An `alloc` step.** -/
theorem Sys.Inv.alloc (h : s.Inv H n) (h0 : 0 < H) (hn : H + n ≤ 2 ^ 63) (hsize : 0 < layout.size) :
    ∃ s', s.exec (.alloc layout) = some s' ∧ s'.Inv H n := by
  obtain ⟨p, -, hge, hdvd, halloc⟩ := h.alloc_spec hn hsize
  have hlo := (Nat.le_add_right _ _).trans h.length_le
  simp only [Sys.exec, halloc, Option.bind_eq_bind, Option.bind_some]
  by_cases hpast : H + n < p + layout.size
  · rw [if_pos hpast, if_pos rfl]
    exact ⟨_, rfl, h⟩
  · rw [if_neg hpast, if_neg (by dsimp only; omega)]
    refine ⟨_, rfl, h.start, h.stop, not_lt.mp hpast, rfl, ?_, ?_, ?_, h.live.cons_cons _, ?_, ?_⟩
    · exact h.packed.cons_of_le (r := ⟨p, layout.size⟩) hlo hge
    · exact List.forall_mem_cons.mpr ⟨hdvd, h.dvd⟩
    · have := h.length_le
      simp only [List.length_cons]
      omega
    · simp only [List.length_cons, h.count]
    · exact fun hnil => absurd hnil (List.cons_ne_nil _ _)

/-- **A `dealloc` step**: the last one empties the heap. -/
theorem Sys.Inv.dealloc (h : s.Inv H n) (ha : a ∈ s.live) :
    ∃ s', s.exec (.dealloc a) = some s' ∧ s'.Inv H n := by
  have hpos : 1 ≤ s.live.length := List.length_pos_of_mem ha
  have hlen : (s.live.erase a).length = s.live.length - 1 := List.length_erase_of_mem ha
  have hzero : s.live.length - 1 = 0 ↔ s.live.erase a = [] := by
    rw [← hlen, List.length_eq_zero_iff]
  simp only [Sys.exec, BumpAllocator.dealloc, h.count, Word.sub_of_le hpos, Option.bind_eq_bind,
    Option.bind_some, hzero]
  refine ⟨_, rfl, ?_⟩
  by_cases hlast : s.live.erase a = []
  · rw [if_pos hlast, if_pos hlast]
    refine ⟨h.start, h.stop, ?_, h.start, ⟨fun _ hr => absurd hr List.not_mem_nil, .nil⟩,
      fun _ hr => absurd hr List.not_mem_nil, h.start.ge, ?_, hlen.symm, fun _ => rfl⟩
    · exact h.start.trans_le (Nat.le_add_right _ _)
    · rw [hlast]
  · rw [if_neg hlast, if_neg hlast]
    exact ⟨h.start, h.stop, h.next_le, h.next_eq, h.packed, h.dvd, h.length_le,
      (List.erase_sublist).trans h.live, hlen.symm, fun hnil => absurd hnil hlast⟩

/-- **Every step succeeds and keeps the invariant.** -/
theorem Sys.Inv.exec (h : s.Inv H n) (h0 : 0 < H) (hn : H + n ≤ 2 ^ 63) (hop : s.Owns op) :
    ∃ s', s.exec op = some s' ∧ s'.Inv H n := by
  cases op with
  | alloc layout => exact h.alloc h0 hn hop
  | dealloc a => exact h.dealloc hop

theorem run_inv (hinit : BumpAllocator.new.init H n = some heap) (h0 : 0 < H)
    (hn : H + n ≤ 2 ^ 63) (hrun : Run Sys.exec Sys.Owns ⟨heap, [], []⟩ ops s) : s.Inv H n := by
  refine hrun.invariant (P := Sys.Inv H n) (fun s op s' h hop hexec => ?_) (init_inv hinit)
  obtain ⟨s'', hexec', h'⟩ := h.exec h0 hn hop
  obtain rfl := Option.some.inj (hexec.symm.trans hexec')
  exact h'

/-! ## Runs -/

/-- **The bump heap is sound for its clients**, in every run: no operation panics, the live
allocations are aligned, inside the heap and apart from each other, and the counter counts them. -/
theorem bump_run_sound (hinit : BumpAllocator.new.init H n = some heap) (h0 : 0 < H)
    (hn : H + n ≤ 2 ^ 63) (hrun : Run Sys.exec Sys.Owns ⟨heap, [], []⟩ ops s) :
    (∀ op, s.Owns op → (s.exec op).isSome) ∧ Packed H (H + n) (s.live.map Alloc.extent) ∧
      (∀ a ∈ s.live, a.layout.align ∣ a.ptr) ∧ s.heap.allocations = s.live.length := by
  have h := run_inv hinit h0 hn hrun
  have hpacked := h.packed.sublist (h.live.map Alloc.extent)
  refine ⟨fun op hop => ?_, ⟨fun r hr => ?_, hpacked.apart⟩,
    fun a ha => h.dvd a (h.live.subset ha), h.count⟩
  · obtain ⟨s', hexec, -⟩ := h.exec h0 hn hop
    rw [hexec]
    rfl
  · have hr' := hpacked.inside r hr
    exact ⟨hr'.1, hr'.2.trans h.next_le⟩

/-- **When memory comes back**: everything handed out since the heap was last empty, freed or not,
lies side by side, and a request is refused exactly if it does not fit, once aligned, between the
end of the last allocation and the end of the heap.  When nothing is live the whole heap is free
again. -/
theorem bump_refuses_iff (hinit : BumpAllocator.new.init H n = some heap) (h0 : 0 < H)
    (hn : H + n ≤ 2 ^ 63) (hrun : Run Sys.exec Sys.Owns ⟨heap, [], []⟩ ops s)
    (hsize : 0 < layout.size) :
    Packed H (s.top H) (s.issued.map Alloc.extent) ∧ s.live.Sublist s.issued ∧
      (s.live = [] → s.top H = H) ∧
      ∃ p, alignUp (s.top H) layout.align = some p ∧
        (s.heap.alloc layout = some (0, s.heap) ↔ H + n < p + layout.size) := by
  have h := run_inv hinit h0 hn hrun
  obtain ⟨p, hp, hge, -, halloc⟩ := h.alloc_spec hn hsize
  have hlo := (Nat.le_add_right _ _).trans h.length_le
  rw [h.next_eq] at hp
  refine ⟨h.next_eq ▸ h.packed, h.live, fun hnil => ?_, p, hp, ?_⟩
  · rw [Sys.top, h.empty hnil]
    rfl
  · rw [halloc, Option.some.injEq]
    refine ⟨fun heq => ?_, fun hpast => if_pos hpast⟩
    by_contra hno
    rw [if_neg hno] at heq
    have hp0 : p = 0 := congrArg Prod.fst heq
    omega

/-- 16 bytes. -/
def sixteen : Layout := .ofBytes 16 (by decide)

/-- Three allocations fill a heap of 48 bytes, and the first two are given back. -/
def threeTaken : List Op :=
  [.alloc sixteen, .alloc sixteen, .alloc sixteen, .dealloc ⟨4096, sixteen⟩,
    .dealloc ⟨4112, sixteen⟩]

theorem bump_run_sound_threeTaken : ∃ heap s, BumpAllocator.new.init 4096 48 = some heap ∧
    Run Sys.exec Sys.Owns ⟨heap, [], []⟩ threeTaken s ∧ s.live = [⟨4128, sixteen⟩] ∧
    s.heap.allocations = s.live.length := by
  have hgo : (runFrom Sys.exec Sys.Owns ⟨⟨4096, 4144, 4096, 0⟩, [], []⟩ threeTaken).any
      (fun s => decide (s.live = [⟨4128, sixteen⟩])) = true := by decide +kernel
  simp only [Option.any_eq_true, decide_eq_true_eq] at hgo
  obtain ⟨s, hs, hlive⟩ := hgo
  have hrun := Run.of_runFrom hs
  exact ⟨_, s, rfl, hrun, hlive,
    (bump_run_sound (H := 4096) (n := 48) rfl (by decide) (by decide) hrun).2.2.2⟩

/-- Sixteen bytes are in use, and no others can be had. -/
theorem bump_refuses_iff_threeTaken : ∃ heap s, BumpAllocator.new.init 4096 48 = some heap ∧
    Run Sys.exec Sys.Owns ⟨heap, [], []⟩ threeTaken s ∧ s.live = [⟨4128, sixteen⟩] ∧
    s.heap.alloc sixteen = some (0, s.heap) := by
  have hgo : (runFrom Sys.exec Sys.Owns ⟨⟨4096, 4144, 4096, 0⟩, [], []⟩ threeTaken).any
      (fun s => decide (s.live = [⟨4128, sixteen⟩]) && decide (s.top 4096 = 4144)) = true := by
    decide +kernel
  simp only [Option.any_eq_true, Bool.and_eq_true, decide_eq_true_eq] at hgo
  obtain ⟨s, hs, hlive, htop⟩ := hgo
  have hrun := Run.of_runFrom hs
  have hsize : 0 < sixteen.size := by decide
  obtain ⟨-, -, -, p, hp, hiff⟩ :=
    bump_refuses_iff (H := 4096) (n := 48) rfl (by decide) (by decide) hrun hsize
  rw [htop] at hp
  obtain ⟨-, -, -, hge, -⟩ := alignUp_eq_some hp
  exact ⟨_, s, rfl, hrun, hlive, hiff.mpr (by omega)⟩

end YontiOs.Bump
