import YontiOs.Allocator.FreeRegions
import YontiOs.Machinery.Run

/-!
# Allocator/FirstFit — the first-fit heap over whole runs

The free regions and the live allocations are packed into the heap side by side (`Sys.Inv`), and
every step keeps them so (`Sys.Inv.exec`).  Below `2 ^ 63` no step panics
(`linkedList_safe`).

The sizes add up to the heap only as long as no allocation is aligned past the start of its region:
`alloc` puts what is behind the allocation back on the list and drops what is before it
(`linkedList_conserves_iff`).
-/

namespace YontiOs.LinkedList

open LinkedListAllocator Extent

variable {H n lost ptr : ℕ} {mem : Mem} {heap : LinkedListAllocator} {σ σ' : Sys} {op : Op}
  {ops : List Op} {free free' : List Extent} {layout : Layout} {a : Alloc}

/-- A live allocation is aligned, and has a region's size. -/
structure Alloc.Placed (a : Alloc) : Prop where
  size : ∃ align, sizeAlign a.layout = some (a.extent.size, align)
  dvd : a.layout.align ∣ a.ptr
  holds : HoldsNode a.extent

/-- **The free regions and the live allocations are packed into the heap**, and together with the
bytes that were lost they make it up. -/
structure Sys.Inv (H n : ℕ) (σ : Sys) (free : List Extent) (lost : ℕ) : Prop where
  lists : Lists σ.heap free
  holds : ∀ r ∈ free, HoldsNode r
  placed : ∀ a ∈ σ.live, a.Placed
  packed : Packed H (H + n) (free ++ σ.live.map Alloc.extent)
  ledger : total free + total (σ.live.map Alloc.extent) + lost = n

namespace Sys.Inv

variable (h : Sys.Inv H n σ free lost)
include h

theorem apart : free.Pairwise Apart := (List.pairwise_append.mp h.packed.apart).1

theorem length_lt (hn : n < 2 ^ 64) : free.length < 2 ^ 64 := by
  have hle : free.length ≤ total free := by
    rw [total, ← List.length_map (f := Extent.size)]
    refine List.length_le_sum_of_one_le _ fun k hk => ?_
    obtain ⟨r, hr, rfl⟩ := List.mem_map.mp hk
    have := (h.holds r hr).large
    omega
  have := h.ledger
  omega

/-- **An allocation.** -/
theorem alloc {s' : LinkedListAllocator} (hn : n < 2 ^ 64)
    (ha : σ.heap.alloc layout = some (ptr, s')) :
    ∃ free', Sys.Inv H n (if ptr = 0 then ⟨s', σ.live⟩ else ⟨s', ⟨ptr, layout⟩ :: σ.live⟩) free'
      (lost + σ.heap.gap layout) := by
  rcases h.lists.alloc_cases h.holds h.apart (h.length_lt hn) ha with
    ⟨rfl, rfl, hgap⟩ | ⟨us, r, vs, size, align, rfl, hsize, hptr, hle, hgap, hleft, hlists⟩
  · exact ⟨free, by rw [if_pos rfl, hgap]; exact h⟩
  · obtain ⟨-, hsum, hdvd, hge, hlt⟩ := alignUp_eq_some hptr
    have hr := h.holds r (by simp)
    have hpos : ptr ≠ 0 := by
      have := hr.pos
      omega
    have hext : Alloc.extent ⟨ptr, layout⟩ = ⟨ptr, size⟩ := by
      rw [Alloc.extent, hsize, Option.getD_some]
    obtain ⟨-, h16, hmod, h64, -, halign⟩ := sizeAlign_eq_some hsize
    refine ⟨leftover r (ptr + size) ++ (us ++ vs), ?_⟩
    rw [if_neg hpos, hgap]
    refine ⟨hlists, ?_, ?_, ?_, ?_⟩
    · intro q hq
      rcases List.mem_append.mp hq with hq | hq
      · exact hleft q hq
      · exact h.holds q (by simp only [List.mem_append, List.mem_cons] at hq ⊢; tauto)
    · refine List.forall_mem_cons.mpr ⟨⟨⟨align, by rw [hext, hsize]⟩, ?_, ?_⟩, h.placed⟩
      · exact (align_dvd_max_eight layout).trans (halign ▸ hdvd)
      · rw [hext]
        have hp8 := mod_eight_of_alignUp hsize hptr
        constructor <;> simp only <;> omega
    · have hsplit := h.packed.perm
        (show (us ++ r :: vs ++ σ.live.map Alloc.extent).Perm
          (r :: (us ++ vs ++ σ.live.map Alloc.extent)) by
            rw [List.append_assoc, List.append_assoc]; exact List.perm_middle)
      refine (hsplit.replace (packed_leftover hge hle)).perm ?_
      rw [List.map_cons, hext, List.cons_append, ← List.append_assoc]
      exact List.perm_middle.symm
    · have hledger := h.ledger
      simp only [List.map_cons, hext, total_append, total_cons, total_leftover hle] at hledger ⊢
      simp only [stop] at *
      omega

/-- **A release.** -/
theorem dealloc {s' : LinkedListAllocator} (ha : a ∈ σ.live)
    (hd : σ.heap.dealloc a.ptr a.layout = some s') :
    Sys.Inv H n ⟨s', σ.live.erase a⟩ (a.extent :: free) lost := by
  have hplaced := h.placed a ha
  obtain ⟨align, hsize⟩ := hplaced.size
  simp only [LinkedListAllocator.dealloc, hsize, Option.bind_eq_bind, Option.bind_some] at hd
  have hperm : (σ.live.map Alloc.extent).Perm (a.extent :: (σ.live.erase a).map Alloc.extent) :=
    (List.perm_cons_erase ha).map Alloc.extent
  have hpacked := h.packed.perm (hperm.append_left free)
  refine ⟨?_, List.forall_mem_cons.mpr ⟨hplaced.holds, h.holds⟩,
    fun b hb => h.placed b (List.mem_of_mem_erase hb), hpacked.perm List.perm_middle, ?_⟩
  · refine h.lists.addFreeRegion h.holds hplaced.holds (fun q hq => ?_) hd
    exact (pairwise_middle hpacked.apart).1 q (List.mem_append_left _ hq)
  · have hledger := h.ledger
    rw [total_perm hperm] at hledger
    simp only [total_cons] at hledger ⊢
    omega

/-- **A client's store.** -/
theorem store {addr : ℕ} {byte : UInt8} (ha : a ∈ σ.live) (hge : a.ptr ≤ addr)
    (hlt : addr < a.extent.stop) :
    Sys.Inv H n ⟨{ σ.heap with mem := Function.update σ.heap.mem addr byte }, σ.live⟩ free
      lost := by
  refine ⟨h.lists.congr rfl fun r hr => ?_, h.holds, h.placed, h.packed, h.ledger⟩
  have hapart := (List.pairwise_append.mp h.packed.apart).2.2 r hr a.extent (List.mem_map_of_mem ha)
  have h16 := (h.holds r hr).large
  refine node_congr fun x h1 h2 => Function.update_of_ne ?_ _ _
  rintro rfl
  simp only [Apart, stop, Alloc.extent] at *
  omega

end Sys.Inv

/-- The bytes an operation drops in front of its allocation. -/
def Sys.gap (σ : Sys) : Op → ℕ
  | .alloc layout => σ.heap.gap layout
  | _ => 0

/-- A region that is taken starts at a multiple of the alignment asked for, which is adjusted to
that of a node. -/
def Sys.TakesAligned (σ : Sys) : Op → Prop
  | .alloc layout => ∀ a ∈ σ.heap.chosenRegion layout, a % max layout.align 8 = 0
  | _ => True

instance (σ : Sys) : ∀ op, Decidable (σ.TakesAligned op)
  | .alloc layout => inferInstanceAs (Decidable (∀ a ∈ σ.heap.chosenRegion layout, _))
  | .dealloc _ | .store _ _ => inferInstanceAs (Decidable True)

theorem Sys.gap_eq_zero_iff : σ.gap op = 0 ↔ σ.TakesAligned op := by
  cases op with
  | alloc layout =>
    have hpos : 0 < max layout.align 8 := lt_max_of_lt_right (by decide)
    simp only [Sys.gap, Sys.TakesAligned, LinkedListAllocator.gap]
    cases σ.heap.chosenRegion layout with
    | none => exact iff_of_true rfl fun _ h => by cases h
    | some a => simp [offAlign_eq_zero_iff hpos]
  | dealloc a => exact iff_of_true rfl trivial
  | store addr byte => exact iff_of_true rfl trivial

/-- **Every step keeps the heap packed.** -/
theorem Sys.Inv.exec (h : Sys.Inv H n σ free lost) (hn : n < 2 ^ 64) (hown : σ.Owns op)
    (hstep : σ.exec op = some σ') : ∃ free', Sys.Inv H n σ' free' (lost + σ.gap op) := by
  cases op with
  | alloc layout =>
    obtain ⟨⟨ptr, s'⟩, ha, hret⟩ := Option.bind_eq_some_iff.mp hstep
    obtain ⟨free', hinv⟩ := h.alloc hn ha
    refine ⟨free', ?_⟩
    dsimp only at hret
    split_ifs at hinv hret with h0 <;> obtain rfl := Option.some.inj hret <;> exact hinv
  | dealloc a =>
    obtain ⟨s', hd, hret⟩ := Option.bind_eq_some_iff.mp hstep
    obtain rfl := Option.some.inj hret
    exact ⟨_, h.dealloc hown hd⟩
  | store addr byte =>
    obtain ⟨a, ha, hge, hlt⟩ := hown
    obtain rfl := Option.some.inj hstep
    exact ⟨_, h.store ha hge hlt⟩

/-- Layouts of a size that is not zero and can be rounded up to 8. -/
def Op.Valid : Op → Prop
  | .alloc layout => 0 < layout.size ∧ layout.size ≤ 2 ^ 63 - 8
  | _ => True

instance : ∀ op : Op, Decidable op.Valid
  | .alloc layout => inferInstanceAs (Decidable (0 < layout.size ∧ layout.size ≤ 2 ^ 63 - 8))
  | .dealloc _ => inferInstanceAs (Decidable True)
  | .store _ _ => inferInstanceAs (Decidable True)

/-- What a client may do. -/
def Sys.Legal (σ : Sys) (op : Op) : Prop := σ.Owns op ∧ op.Valid

instance (σ : Sys) (op : Op) : Decidable (σ.Legal op) := inferInstanceAs (Decidable (_ ∧ _))

/-- **No step panics** in a heap below `2 ^ 63`. -/
theorem Sys.Inv.exists_exec (h : Sys.Inv H n σ free lost) (htop : H + n ≤ 2 ^ 63)
    (hop : σ.Legal op) : ∃ σ', σ.exec op = some σ' := by
  obtain ⟨hown, hvalid⟩ := hop
  have hstop : ∀ r ∈ free, r.stop ≤ 2 ^ 63 := fun r hr =>
    (h.packed.inside r (List.mem_append_left _ hr)).2.trans htop
  cases op with
  | alloc layout =>
    obtain ⟨ptr, s', ha⟩ := h.lists.exists_alloc h.holds h.apart (h.length_lt (by omega)) hstop
      hvalid.2
    simp only [Sys.exec, ha, Option.bind_eq_bind, Option.bind_some]
    split_ifs <;> exact ⟨_, rfl⟩
  | dealloc a =>
    have hplaced := h.placed a hown
    obtain ⟨align, hsize⟩ := hplaced.size
    have hinside := (h.packed.inside a.extent
      (List.mem_append_right _ (List.mem_map_of_mem hown))).2
    have h16 := hplaced.holds.large
    obtain ⟨s', hadd⟩ := exists_addFreeRegion (s := σ.heap) hplaced.holds.aligned h16
      (by simp only [stop] at hinside; omega)
    refine ⟨⟨s', σ.live.erase a⟩, ?_⟩
    simp only [Sys.exec, LinkedListAllocator.dealloc, hsize, Option.bind_eq_bind, Option.bind_some]
    exact congrArg (Option.bind · _) hadd
  | store addr byte => exact ⟨_, rfl⟩

/-! ## Runs -/

/-- `init` lists the whole heap.  A heap at address 0 has no list: the reference to it is `None`. -/
theorem inv_of_init (hn : n < 2 ^ 64) (hinit : (new mem).init H n = some heap) :
    ∃ free lost, Sys.Inv H n ⟨heap, []⟩ free lost ∧ (0 < H → lost = 0) := by
  have hempty : Lists (new mem) [] := ⟨rfl, fun r hr => nomatch hr⟩
  obtain ⟨h8, h16, hH, heq⟩ := addFreeRegion_eq_some hinit
  rcases H.eq_zero_or_pos with rfl | hpos
  · have hnil : Lists heap [] := ⟨by rw [heq]; rfl, by simp⟩
    exact ⟨[], n, ⟨hnil, by simp, by simp, ⟨by simp, by simp⟩, by simp⟩, fun h0 => by omega⟩
  · have hnode : HoldsNode ⟨H, n⟩ := ⟨h8, h16, hpos, hH, hn⟩
    have hlists : Lists heap [⟨H, n⟩] := hempty.addFreeRegion (by simp) hnode (by simp) hinit
    have hinside : Packed H (H + n) [⟨H, n⟩] :=
      ⟨List.forall_mem_singleton.mpr ⟨le_rfl, le_rfl⟩, List.pairwise_singleton _ _⟩
    exact ⟨[⟨H, n⟩], 0, ⟨hlists, List.forall_mem_singleton.mpr hnode, by simp,
      by simpa using hinside, by simp⟩, fun _ => rfl⟩

/-- The bytes a run drops in front of its allocations. -/
def lostBy : Sys → List Op → ℕ
  | _, [] => 0
  | σ, op :: ops => σ.gap op + (σ.exec op).elim 0 fun σ' => lostBy σ' ops

/-- **A run keeps the heap packed.** -/
theorem Sys.Inv.run (h : Sys.Inv H n σ free lost) (hn : n < 2 ^ 64)
    (hrun : Run Sys.exec Sys.Owns σ ops σ') :
    ∃ free', Sys.Inv H n σ' free' (lost + lostBy σ ops) := by
  induction hrun generalizing free lost with
  | nil => exact ⟨free, h⟩
  | cons hown hstep _ ih =>
    obtain ⟨free₁, h₁⟩ := h.exec hn hown hstep
    obtain ⟨free', h'⟩ := ih h₁
    refine ⟨free', ?_⟩
    rwa [lostBy, hstep, Option.elim_some, ← Nat.add_assoc]

/-- A run drops nothing exactly if all its steps take aligned regions. -/
theorem lostBy_eq_zero_iff {ok : Sys → Op → Prop} (hrun : Run Sys.exec ok σ ops σ') :
    lostBy σ ops = 0 ↔ ∀ pre op, pre ++ [op] <+: ops →
      ∀ σ₁, pre.foldlM Sys.exec σ = some σ₁ → σ₁.TakesAligned op := by
  induction hrun with
  | nil => exact iff_of_true rfl fun pre op hpre => absurd hpre (by simp)
  | @cons σ σ₁ σ' op ops hown hstep _ ih =>
    rw [lostBy, hstep, Option.elim_some, Nat.add_eq_zero_iff, Sys.gap_eq_zero_iff, ih]
    constructor
    · rintro ⟨hgap, hrest⟩ (_ | ⟨op', pre⟩) op₁ hpre σ₂ hfold
      · obtain rfl : op₁ = op := by simpa using hpre
        obtain rfl : σ = σ₂ := by simpa using hfold
        exact hgap
      · rw [List.cons_append, List.cons_prefix_cons] at hpre
        obtain ⟨rfl, hpre⟩ := hpre
        rw [List.foldlM_cons, hstep] at hfold
        exact hrest pre op₁ hpre σ₂ hfold
    · intro hall
      refine ⟨hall [] op (by simp) σ rfl, fun pre op₁ hpre σ₂ hfold => ?_⟩
      refine hall (op :: pre) op₁ (by simpa using hpre) σ₂ ?_
      rw [List.foldlM_cons, hstep]
      exact hfold

/-- Without wide alignments nothing is dropped: regions start at multiples of 8. -/
theorem Sys.Inv.lostBy_eq_zero (h : Sys.Inv H n σ free lost) (hn : n < 2 ^ 64)
    (hrun : Run Sys.exec Sys.Owns σ ops σ')
    (hal : ∀ layout, Op.alloc layout ∈ ops → layout.align ≤ 8) : lostBy σ ops = 0 := by
  induction hrun generalizing free lost with
  | nil => rfl
  | @cons σ σ₁ σ' op ops hown hstep _ ih =>
    obtain ⟨free₁, h₁⟩ := h.exec hn hown hstep
    rw [lostBy, hstep, Option.elim_some, ih h₁ fun l hl => hal l (List.mem_cons_of_mem _ hl),
      Nat.add_zero]
    cases op with
    | alloc layout =>
      obtain ⟨⟨ptr, s'⟩, ha, -⟩ := Option.bind_eq_some_iff.mp hstep
      have h8 := hal layout List.mem_cons_self
      rcases h.lists.alloc_cases h.holds h.apart (h.length_lt hn) ha with
        ⟨-, -, hgap⟩ | ⟨us, r, vs, size, align, rfl, hsize, hptr, -, hgap, -⟩
      · exact hgap
      · obtain ⟨-, -, -, -, -, rfl⟩ := sizeAlign_eq_some hsize
        obtain ⟨-, -, hdvd, hge, hlt⟩ := alignUp_eq_some hptr
        have haligned := (h.holds r (by simp)).aligned
        rw [max_eq_right h8] at hdvd hlt
        refine hgap.trans ?_
        omega
    | dealloc a => rfl
    | store addr byte => rfl

/-! ## Safety -/

/-- **The linked-list heap is safe.**  In a heap at a multiple of 8, of at least 16 bytes and below
`2 ^ 63`, whatever clients ask for and give back: no step panics, so no assertion of
`add_free_region` fails; every live allocation is aligned and, with its adjusted size, inside the
heap; the free regions and the live allocations are pairwise apart; and every free region is in the
heap, at a multiple of 8, and has room for a node. -/
theorem linkedList_safe (mem : Mem) (h8 : H % 8 = 0) (h16 : 16 ≤ n) (htop : H + n ≤ 2 ^ 63) :
    ∃ heap, (new mem).init H n = some heap ∧
      ∀ ops σ, Run Sys.exec Sys.Legal ⟨heap, []⟩ ops σ →
        (∀ op, σ.Legal op → ∃ σ', σ.exec op = some σ') ∧
        (∀ a ∈ σ.live, a.layout.align ∣ a.ptr ∧ a.layout.size ≤ a.extent.size ∧
          H ≤ a.ptr ∧ a.extent.stop ≤ H + n) ∧
        ∃ free, Lists σ.heap free ∧ (free ++ σ.live.map Alloc.extent).Pairwise Apart ∧
          ∀ r ∈ free, r.start % 8 = 0 ∧ 16 ≤ r.size ∧ H ≤ r.start ∧ r.stop ≤ H + n := by
  have hn : n < 2 ^ 64 := by omega
  obtain ⟨heap, hinit⟩ : ∃ heap, (new mem).init H n = some heap :=
    exists_addFreeRegion h8 h16 (by omega)
  obtain ⟨free₀, lost₀, hinv₀, -⟩ := inv_of_init hn hinit
  refine ⟨heap, hinit, fun ops σ hrun => ?_⟩
  obtain ⟨free, hinv⟩ := hinv₀.run hn (hrun.mono fun _ _ hok => hok.1)
  refine ⟨fun op hop => hinv.exists_exec htop hop, fun a ha => ?_, free, hinv.lists,
    hinv.packed.apart, fun r hr => ?_⟩
  · have hin := hinv.packed.inside a.extent (List.mem_append_right _ (List.mem_map_of_mem ha))
    obtain ⟨align, hsize⟩ := (hinv.placed a ha).size
    exact ⟨(hinv.placed a ha).dvd, (sizeAlign_eq_some hsize).1, hin⟩
  · exact ⟨(hinv.holds r hr).aligned, (hinv.holds r hr).large,
      hinv.packed.inside r (List.mem_append_left _ hr)⟩

/-- 24 bytes, at a multiple of 16. -/
def sixteenWide : Layout := ⟨24, 16, ⟨4, rfl⟩, by decide⟩

/-- Two allocations and a release on a fresh heap of 1 KiB. -/
theorem linkedList_safe_kilobyte : ∃ heap σ, (new fun _ => 0).init 4096 1024 = some heap ∧
    Run Sys.exec Sys.Legal ⟨heap, []⟩
      [.alloc sixteenWide, .alloc sixteenWide, .dealloc ⟨4096, sixteenWide⟩] σ ∧
    σ.live = [⟨4128, sixteenWide⟩] ∧ (∀ a ∈ σ.live, a.layout.align ∣ a.ptr) ∧
    ∃ free, Lists σ.heap free ∧ (free ++ σ.live.map Alloc.extent).Pairwise Apart := by
  obtain ⟨heap, hinit, hsafe⟩ := linkedList_safe (fun _ => 0) (show 4096 % 8 = 0 by decide)
    (show 16 ≤ 1024 by decide) (by decide)
  have hgo : (((new fun _ => 0).init 4096 1024).bind fun heap => runFrom Sys.exec Sys.Legal
      ⟨heap, []⟩ [.alloc sixteenWide, .alloc sixteenWide, .dealloc ⟨4096, sixteenWide⟩]).any
      (fun σ => decide (σ.live = [⟨4128, sixteenWide⟩])) = true := by decide +kernel
  rw [hinit, Option.bind_some, Option.any_eq_true] at hgo
  obtain ⟨σ, hrun, hlive⟩ := hgo
  obtain ⟨-, haligned, free, hlists, hapart, -⟩ := hsafe _ σ (.of_runFrom hrun)
  exact ⟨heap, σ, hinit, .of_runFrom hrun, of_decide_eq_true hlive, fun a ha => (haligned a ha).1,
    free, hlists, hapart⟩

/-! ## Conservation -/

/-- **The linked-list heap loses the bytes before its aligned allocations, and no others.**  At any
point of a run on a heap not at address 0, the listed free regions, the live allocations and the
bytes the run has dropped make up the heap.  So free and live bytes sum to the heap's size exactly
if every region taken started at a multiple of its alignment, which is so when no alignment is wider
than 8. -/
theorem linkedList_conserves_iff (mem : Mem) (h0 : 0 < H) (hn : n < 2 ^ 64)
    (hinit : (new mem).init H n = some heap) (hrun : Run Sys.exec Sys.Owns ⟨heap, []⟩ ops σ) :
    ∃ free, Lists σ.heap free ∧
      total free + total (σ.live.map Alloc.extent) + lostBy ⟨heap, []⟩ ops = n ∧
      (total free + total (σ.live.map Alloc.extent) = n ↔ ∀ pre op, pre ++ [op] <+: ops →
        ∀ σ₁, pre.foldlM Sys.exec ⟨heap, []⟩ = some σ₁ → σ₁.TakesAligned op) ∧
      ((∀ layout, Op.alloc layout ∈ ops → layout.align ≤ 8) →
        total free + total (σ.live.map Alloc.extent) = n) := by
  obtain ⟨free₀, lost₀, hinv₀, hlost₀⟩ := inv_of_init hn hinit
  obtain rfl := hlost₀ h0
  obtain ⟨free, hinv⟩ := hinv₀.run hn hrun
  have hledger := hinv.ledger
  rw [Nat.zero_add] at hledger
  refine ⟨free, hinv.lists, hledger, ?_, fun hal => ?_⟩
  · rw [← lostBy_eq_zero_iff hrun]
    omega
  · rw [hinv₀.lostBy_eq_zero hn hrun hal] at hledger
    exact hledger

/-- One allocation from a region that is aligned for it. -/
theorem linkedList_conserves_iff_aligned : ∃ heap σ free,
    (new fun _ => 0).init 4096 1024 = some heap ∧
    Run Sys.exec Sys.Owns ⟨heap, []⟩ [.alloc sixteenWide] σ ∧ Lists σ.heap free ∧
    total free + total (σ.live.map Alloc.extent) = 1024 := by
  have hgo : (((new fun _ => 0).init 4096 1024).any fun heap =>
      (runFrom Sys.exec Sys.Owns ⟨heap, []⟩ [.alloc sixteenWide]).isSome &&
        decide (Sys.TakesAligned ⟨heap, []⟩ (.alloc sixteenWide))) = true := by decide +kernel
  simp only [Option.any_eq_true, Bool.and_eq_true, decide_eq_true_eq,
    Option.isSome_iff_exists] at hgo
  obtain ⟨heap, hinit, ⟨σ, hrun⟩, haligned⟩ := hgo
  obtain ⟨free, hlists, -, hiff, -⟩ := linkedList_conserves_iff _ (by decide) (by decide) hinit
    (.of_runFrom hrun)
  refine ⟨heap, σ, free, hinit, .of_runFrom hrun, hlists, hiff.mpr fun pre op hpre σ₁ hσ₁ => ?_⟩
  obtain rfl : pre = [] := List.eq_nil_of_length_eq_zero (by simpa using hpre.length_le)
  obtain rfl : op = .alloc sixteenWide := by simpa using hpre
  obtain rfl : ⟨heap, []⟩ = σ₁ := by simpa using hσ₁
  exact haligned

/-- **Eight bytes lost**: a heap that starts 8 behind a multiple of 16, and an allocation aligned to
16. -/
theorem linkedList_drops_front : ∃ heap σ, (new fun _ => 0).init 4104 1024 = some heap ∧
    Run Sys.exec Sys.Owns ⟨heap, []⟩ [.alloc sixteenWide] σ ∧ Lists σ.heap [⟨4144, 984⟩] ∧
    σ.live.map Alloc.extent = [⟨4112, 32⟩] ∧
    total [⟨4144, 984⟩] + total (σ.live.map Alloc.extent) = 1016 := by
  have hgo : (((new fun _ => 0).init 4104 1024).any fun heap =>
      (runFrom Sys.exec Sys.Owns ⟨heap, []⟩ [.alloc sixteenWide]).any fun σ =>
        decide (Lists σ.heap [⟨4144, 984⟩] ∧ σ.live.map Alloc.extent = [⟨4112, 32⟩])) = true := by
    decide +kernel
  simp only [Option.any_eq_true, decide_eq_true_eq] at hgo
  obtain ⟨heap, hinit, σ, hrun, hlists, hlive⟩ := hgo
  exact ⟨heap, σ, hinit, .of_runFrom hrun, hlists, hlive, by rw [hlive]; rfl⟩

end YontiOs.LinkedList
