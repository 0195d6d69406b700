import YontiOs.Memory.Carving
import YontiOs.Machinery.Run

/-!
# Memory/FrameClient — the frame allocator and its users, over whole runs

`Sys` is the allocator with the blocks it handed out and has not got back; `exec` is one call, or a
store by anyone to memory that is not free.  `Sys.Inv` keeps the pool of `Holds` with exactly the
live blocks in use, along every run.
-/

namespace YontiOs.Buddy

open AlignedRange BuddyAllocator

/-- The allocator, and the live blocks as address and order. -/
structure Sys where
  alloc : BuddyAllocator
  live : List (ℕ × ℕ)

/-- What users do. -/
inductive Op where
  | allocate (order : ℕ)
  | deallocate (frame order : ℕ)
  | store (addr : ℕ) (byte : UInt8)

/-- One operation; `none` is a panic. -/
def Sys.exec (s : Sys) : Op → Option Sys
  | .allocate order => do
    let (frame, alloc) ← s.alloc.allocateFrameOrder order
    some ⟨alloc, (frame.map fun f => (f, order)).toList ++ s.live⟩
  | .deallocate frame order => do
    some ⟨← s.alloc.deallocateFrameOrder frame order, s.live.erase (frame, order)⟩
  | .store addr byte =>
    some ⟨{ s.alloc with mem := Function.update s.alloc.mem addr byte }, s.live⟩

/-- Users give back what they hold, and leave free frames alone. -/
def Sys.Allowed (s : Sys) : Op → Prop
  | .allocate _ => True
  | .deallocate frame order => (frame, order) ∈ s.live
  | .store addr _ => ∀ x, s.alloc.bit x = true →
      addr < s.alloc.addr x ∨ s.alloc.addr x + frameSize ≤ addr

/-- The operation unlinks blocks of the lists only. -/
def Sys.UnlinksListed (s : Sys) : Op → Prop
  | .deallocate frame order => ∀ c ∈ s.alloc.removeCalls frame order, c.Member
  | .allocate _ | .store _ _ => True

variable {G : Layout} {Q : Set (ℕ × ℕ)} {L : ℕ → List ℕ} {B : List (ℕ × ℕ)} {s s' : Sys} {op : Op}
  {a₀ : BuddyAllocator} {k f offset : ℕ} {regions : List MemoryRegion} {mem : Mem} {ops : List Op}

/-- A block by its address. -/
def Layout.place (G : Layout) (b : ℕ × ℕ) : ℕ × ℕ := (G.base + b.1 * frameSize, b.2)

theorem Layout.place_injective (G : Layout) : Function.Injective G.place := by
  rintro ⟨i, k⟩ ⟨j, l⟩ h
  simp only [place, Prod.mk.injEq, frameSize] at h ⊢
  omega

/-- **The blocks in use are the live ones.** -/
structure Sys.Inv (G : Layout) (Q : Set (ℕ × ℕ)) (s : Sys) (L : ℕ → List ℕ) (B : List (ℕ × ℕ)) :
    Prop where
  holds : Holds G Q s.alloc L B
  live : s.live = B.map G.place
  count : s.alloc.allocatedCount = units B

/-- A store beside the free frames changes no link. -/
theorem Holds.store {a : BuddyAllocator} {addr : ℕ} {byte : UInt8} (h : Holds G Q a L B)
    (hfree : ∀ x, a.bit x = true → addr < a.addr x ∨ a.addr x + frameSize ≤ addr) :
    Holds G Q { a with mem := Function.update a.mem addr byte } L B := by
  refine ⟨h.lists.congr fun i ⟨k, hi⟩ x h1 h2 => ?_, h.pool, h.bits, h.total_eq, h.base_eq,
    h.offset_eq, h.aligned⟩
  rw [Function.update_of_ne]
  rintro rfl
  have := hfree i ((h.bits i).mpr ⟨(i, k), hi, has_self _⟩)
  simp only [frameSize] at this
  omega

/-- **Giving back a live block** unlinks members of the lists only. -/
theorem Sys.Inv.deallocate (h : s.Inv G Q L B)
    (hQ : G.Asks Q ∨ s.UnlinksListed (.deallocate f k)) (hlive : (f, k) ∈ s.live) :
    (∀ c ∈ s.alloc.removeCalls f k, c.Member) ∧
      Returns G.Mapped (s.alloc.deallocateFrameOrder f k) fun a =>
        ∃ L' B', Sys.Inv G Q ⟨a, s.live.erase (f, k)⟩ L' B' := by
  have hmem : (f, k) ∈ B.map G.place := h.live ▸ hlive
  obtain ⟨⟨i, l⟩, hb, heq⟩ := List.mem_map.mp hmem
  obtain ⟨rfl, rfl⟩ := Prod.mk.inj heq
  have hperm := List.perm_cons_erase hb
  obtain ⟨hcalls, hret⟩ := (h.holds.perm hperm).deallocateFrameOrder hQ
    (by rw [h.count, units_perm hperm, units_cons])
  refine ⟨hcalls, hret.mono ?_⟩
  rintro a ⟨hc, L', h'⟩
  refine ⟨L', B.erase (i, l), h', ?_, hc⟩
  rw [h.live, List.map_erase G.place_injective]
  rfl

/-- **Every operation keeps the invariant**, and panics only where an address does not exist. -/
theorem Sys.Inv.exec (h : s.Inv G Q L B) (hQ : G.Asks Q ∨ s.UnlinksListed op)
    (hok : s.Allowed op) :
    Returns G.Mapped (s.exec op) fun s' => ∃ L' B', s'.Inv G Q L' B' := by
  cases op with
  | allocate order =>
    refine (h.holds.allocateFrameOrder h.count).bind ?_
    rintro ⟨frame, a⟩ (⟨hr, -⟩ | ⟨i, L', hframe, h', hc⟩)
    · obtain ⟨rfl, rfl⟩ := Prod.mk.inj hr
      exact .of_eq rfl ⟨L, B, h.holds, h.live, h.count⟩
    · refine .of_eq rfl ⟨L', (i, order) :: B, h', ?_, hc⟩
      obtain rfl : frame = some (G.base + i * frameSize) := hframe
      simp [h.live, Layout.place]
  | deallocate frame order => exact (h.deallocate hQ hok).2.bind fun _ hr => .of_eq rfl hr
  | store addr byte => exact .of_eq rfl ⟨L, B, h.holds.store hok, h.live, h.count⟩

/-- **Along every run** the blocks in use are the live ones. -/
theorem Sys.Inv.run (h : s.Inv G Q L B) (hQ : G.Asks Q) (hrun : Run Sys.exec Sys.Allowed s ops s') :
    ∃ L' B', s'.Inv G Q L' B' :=
  hrun.invariant (P := fun s => ∃ L B, s.Inv G Q L B)
    (fun _ _ s' ⟨_, _, h⟩ hok hstep => (h.exec (.inl hQ) hok).post s' hstep) ⟨L, B, h⟩

/-- So they are along a run that unlinks blocks of the lists only, whatever was merged. -/
theorem Sys.Inv.run_of_unlinksListed (h : s.Inv G Q L B)
    (hrun : Run Sys.exec (fun s op => s.Allowed op ∧ s.UnlinksListed op) s ops s') :
    ∃ L' B', s'.Inv G Q L' B' :=
  hrun.invariant (P := fun s => ∃ L B, s.Inv G Q L B)
    (fun _ _ s' ⟨_, _, h⟩ hok hstep => (h.exec (.inr hok.2) hok.1).post s' hstep) ⟨L, B, h⟩

/-- From `new` on. -/
theorem inv_of_new (hal : ∀ r ∈ usableRegions regions, r.PageAligned)
    (hdis : (usableRegions regions).Pairwise MemoryRegion.Disjoint)
    (hnew : new regions offset mem = some a₀) :
    ∃ h L, Sys.Inv (layoutOf (usableRegions regions) offset h) (oneRegion (usableRegions regions))
      ⟨a₀, []⟩ L [] ∧ ∀ b ∈ blocks L, InRegion (usableRegions regions) b := by
  obtain ⟨hc, h, L, hh, hin⟩ := (new_holds hal hdis).post a₀ hnew
  exact ⟨h, L, ⟨hh, rfl, hc⟩, hin⟩

end YontiOs.Buddy
