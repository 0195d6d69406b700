import YontiOs.Allocator.Soundness
import YontiOs.Machinery.Layout
import YontiOs.Machinery.Packing
import YontiOs.Monitor.Counters
import YontiOs.Trace.Dump

/-!
# Allocator/GlobalAlloc — the global allocator and its books

`alloc` and `dealloc` of the kernel's global allocator: the heap behind its lock, the counters and
the trace.  `Books` is the heap with its clients; next to what they hold it keeps the most they ever
held.

The books agree with the heap in every run: the counters give the bytes in use, the number of live
allocations and the peak (`metrics_exact`), and adding them up never panics.  The trace, as long as
its ring has not been overwritten, replays to the live allocations (`trace_replays`).
-/

namespace YontiOs.Tlsf

open Monitor Trace

/-- The allocator, and the statics it writes to. -/
structure Global where
  tlsf : TlsfAllocator
  monitor : MonitorData
  trace : TraceBuffer

namespace Global

/-- `alloc(layout)`, with the time stamp counter its trace event reads. -/
def alloc (g : Global) (layout : Layout) (tsc : ℕ) : Option (ℕ × Global) := do
  let (ptr, tlsf) ← g.tlsf.malloc layout.size layout.align
  if ptr = 0 then some (ptr, { g with tlsf := tlsf })
  else
    let monitor ← g.monitor.incAlloc layout.size
    some (ptr, ⟨tlsf, monitor, g.trace.record ⟨.alloc, layout.size, ptr, tsc⟩⟩)

/-- `dealloc(ptr, layout)`. -/
def dealloc (g : Global) (ptr : ℕ) (layout : Layout) (tsc : ℕ) : Option Global := do
  let tlsf ← g.tlsf.free ptr
  some ⟨tlsf, g.monitor.incFree layout.size, g.trace.record ⟨.free, layout.size, ptr, tsc⟩⟩

end Global

/-! ## Clients -/

/-- The bytes that live allocations were asked for. -/
def inUse (live : List Alloc) : ℕ := (live.map Alloc.size).sum

@[simp] theorem inUse_cons (al : Alloc) (live : List Alloc) :
    inUse (al :: live) = al.size + inUse live := rfl

/-- The global allocator, the live allocations, and the most bytes that were ever in use. -/
structure Books where
  global : Global
  live : List Alloc
  high : ℕ

/-- What happens: clients allocate, free and store, and other parts of the kernel record events. -/
inductive GlobalOp where
  | alloc (layout : Layout) (tsc : ℕ)
  | dealloc (ptr : ℕ) (layout : Layout) (tsc : ℕ)
  | store (addr : ℕ) (byte : UInt8)
  | record (e : Trace.Call)

namespace Books

/-- The heap and its clients, without the books. -/
def sys (s : Books) : Sys := ⟨s.global.tlsf, s.live⟩

/-- One operation; `none` is a panic. -/
def exec (s : Books) : GlobalOp → Option Books
  | .alloc layout tsc => do
    let (ptr, global) ← s.global.alloc layout tsc
    if ptr = 0 then some { s with global := global }
    else
      let block := (s.global.tlsf.chosenBlock layout.size layout.align).getD 0
      let live := ⟨ptr, layout.size, layout.align, block⟩ :: s.live
      some ⟨global, live, max s.high (inUse live)⟩
  | .dealloc ptr layout tsc => do
    let global ← s.global.dealloc ptr layout tsc
    some { s with global := global, live := s.live.filter (·.ptr ≠ ptr) }
  | .store addr byte =>
    let tlsf := { s.global.tlsf with mem := Function.update s.global.tlsf.mem addr byte }
    some { s with global := { s.global with tlsf := tlsf } }
  | .record e => some { s with global := { s.global with trace := s.global.trace.record e } }

/-- Clients free what is theirs, with its layout, if its alignment is one that `free` can handle;
they store into their own memory; and no one else records allocations. -/
def Allowed (s : Books) : GlobalOp → Prop
  | .alloc _ _ => True
  | .dealloc ptr layout _ => ∃ al ∈ s.live,
      al.ptr = ptr ∧ al.size = layout.size ∧ al.align = layout.align ∧ layout.align ≤ 8
  | .store addr _ => ∃ al ∈ s.live, al.ptr ≤ addr ∧ addr < al.ptr + al.size
  | .record e => e.id ≠ .alloc ∧ e.id ≠ .free

instance (s : Books) : ∀ op, Decidable (s.Allowed op)
  | .alloc _ _ => inferInstanceAs (Decidable True)
  | .dealloc _ _ _ => inferInstanceAs (Decidable (∃ al ∈ s.live, _))
  | .store _ _ => inferInstanceAs (Decidable (∃ al ∈ s.live, _))
  | .record _ => inferInstanceAs (Decidable (_ ∧ _))

end Books

/-! ## Live allocations in the heap -/

variable {H n ptr tsc size : ℕ} {bs : List Block} {L : ℕ × ℕ → List ℕ} {s : Sys} {al : Alloc}
  {layout : Layout} {g g' : Global} {b b' : Books} {op : GlobalOp} {ops : List GlobalOp}

/-- The live allocations together fit into the heap. -/
theorem Sys.Inv.inUse_le (h : s.Inv H bs L) : inUse s.live ≤ total bs := by
  have hpacked : Packed H (H + total bs) (s.live.map fun al => ⟨al.ptr, al.size⟩) := by
    refine ⟨fun r hr => ?_, List.pairwise_map.mpr h.pairwise_clear⟩
    obtain ⟨al, hal, rfl⟩ := List.mem_map.mp hr
    obtain ⟨b, hb, hfit⟩ := h.fits al hal
    have h1 := hfit.ge
    have h2 := hfit.le
    have h3 := place_bounds hb
    simp only [Extent.stop]
    omega
  have hle := hpacked.total_le
  rwa [Extent.total, List.map_map, Nat.add_sub_cancel_left] at hle

/-- Taking one allocation off takes its bytes off, and one from the count. -/
theorem Sys.Inv.perm_filter (h : s.Inv H bs L) (hal : al ∈ s.live) :
    (al :: s.live.filter (·.ptr ≠ al.ptr)).Perm s.live := by
  have hnodup : s.live.Nodup := h.distinct.of_map _
  rw [List.perm_ext_iff_of_nodup _ hnodup]
  · intro x
    rw [List.mem_cons, List.mem_filter, decide_eq_true_eq]
    constructor
    · rintro (rfl | hx)
      · exact hal
      · exact hx.1
    · intro hx
      by_cases hptr : x.ptr = al.ptr
      · exact .inl (List.inj_on_of_nodup_map h.distinct hx hal (h.block_eq_of_ptr_eq hx hal hptr))
      · exact .inr ⟨hx, hptr⟩
  · exact List.nodup_cons.mpr ⟨by simp, hnodup.filter _⟩

/-! ## The books -/

namespace Books

/-- **The counters are right about the heap.** -/
structure Inv (H n : ℕ) (b : Books) : Prop where
  heap : ∃ bs L, b.sys.Inv H bs L ∧ total bs = n
  current : b.global.monitor.currentAllocated = inUse b.live
  peak : b.global.monitor.peakAllocated = b.high
  balance : b.global.monitor.allocCount =
    (b.global.monitor.freeCount + b.live.length) % 2 ^ 64

theorem Inv.inUse_le (h : b.Inv H n) : inUse b.live ≤ n := by
  obtain ⟨bs, L, hinv, rfl⟩ := h.heap
  exact hinv.inUse_le

/-- The books stand when the heap's counters do. -/
theorem Inv.setMonitor (h : b.Inv H n) {m : MonitorData}
    (h1 : m.allocCount = b.global.monitor.allocCount)
    (h2 : m.freeCount = b.global.monitor.freeCount)
    (h3 : m.currentAllocated = b.global.monitor.currentAllocated)
    (h4 : m.peakAllocated = b.global.monitor.peakAllocated) :
    Inv H n { b with global := { b.global with monitor := m } } where
  heap := h.heap
  current := h3.trans h.current
  peak := h4.trans h.peak
  balance := by
    rw [show m.allocCount = _ from h1, show m.freeCount = _ from h2]
    exact h.balance

/-- **What `alloc` returns**: null, or a new live allocation; and it returns whenever `malloc`
does. -/
theorem Inv.alloc_cases (h : b.Inv H n) (hn : n < 2 ^ 32) (tsc : ℕ) {p : ℕ}
    {tlsf : TlsfAllocator} (hm : b.global.tlsf.malloc layout.size layout.align = some (p, tlsf)) :
    (p = 0 ∧ tlsf = b.global.tlsf ∧ b.global.alloc layout tsc = some (0, b.global)) ∨
      ∃ a bs L, p ≠ 0 ∧ b.global.tlsf.chosenBlock layout.size layout.align = some a ∧
        Sys.Inv H ⟨tlsf, ⟨p, layout.size, layout.align, a⟩ :: b.live⟩ bs L ∧ total bs = n ∧
        b.global.alloc layout tsc = some (p, ⟨tlsf, { b.global.monitor with
          allocCount := fetchAdd b.global.monitor.allocCount 1
          currentAllocated := layout.size + inUse b.live
          peakAllocated := max b.high (layout.size + inUse b.live) },
          b.global.trace.record ⟨.alloc, layout.size, p, tsc⟩⟩) := by
  obtain ⟨bs, L, hinv, rfl⟩ := h.heap
  have hexec : b.sys.exec (.malloc layout.size layout.align) = some (if p = 0 then ⟨tlsf, b.live⟩
      else ⟨tlsf, ⟨p, layout.size, layout.align,
        (b.global.tlsf.chosenBlock layout.size layout.align).getD 0⟩ :: b.live⟩) := by
    simp only [Sys.exec, sys, hm, Option.bind_eq_bind, Option.bind_some]
    split_ifs <;> rfl
  rcases exec_malloc_cases hinv hexec with
    ⟨-, hnull⟩ | ⟨ptr, heap, a, bs', L', hm', hp, ha, -, -, -⟩
  · obtain ⟨rfl, rfl⟩ := Prod.mk.inj (Option.some.inj (hm.symm.trans hnull))
    refine .inl ⟨rfl, rfl, ?_⟩
    simp only [Global.alloc, hm, Option.bind_eq_bind, Option.bind_some, if_true]
    rfl
  · obtain ⟨rfl, rfl⟩ := Prod.mk.inj (Option.some.inj (hm.symm.trans hm'))
    rw [if_neg hp] at hexec
    have ha' : b.global.tlsf.chosenBlock layout.size layout.align = some a := ha
    rw [ha', Option.getD_some] at hexec
    obtain ⟨bs', L', hinv', htot⟩ := exec_malloc_inv hinv hexec
    have hle := hinv'.inUse_le
    rw [htot] at hle
    simp only [inUse_cons] at hle
    have hfits : b.global.monitor.currentAllocated + layout.size < 2 ^ 64 := by
      rw [h.current]
      omega
    refine .inr ⟨a, bs', L', hp, ha', hinv', htot, ?_⟩
    simp only [Global.alloc, hm, Option.bind_eq_bind, Option.bind_some, if_neg hp,
      MonitorData.incAlloc_of_lt hfits, h.current, h.peak, Nat.add_comm layout.size]

/-- **One step keeps the books right.** -/
theorem Inv.exec (h : b.Inv H n) (hn : n < 2 ^ 32) (hok : b.Allowed op)
    (hexec : b.exec op = some b') : b'.Inv H n := by
  cases op with
  | alloc layout tsc =>
    simp only [Books.exec, Option.bind_eq_bind, Option.bind_eq_some_iff] at hexec
    obtain ⟨⟨p, g⟩, halloc, hexec⟩ := hexec
    have hm : ∃ r, b.global.tlsf.malloc layout.size layout.align = some r := by
      simp only [Global.alloc, Option.bind_eq_bind, Option.bind_eq_some_iff] at halloc
      exact halloc.imp fun r hr => hr.1
    obtain ⟨⟨p', tlsf⟩, hm⟩ := hm
    rcases h.alloc_cases hn tsc hm with
      ⟨-, -, halloc'⟩ | ⟨a, bs, L, hp, ha, hinv, htot, halloc'⟩
    · obtain ⟨rfl, rfl⟩ := Prod.mk.inj (Option.some.inj (halloc.symm.trans halloc'))
      rw [if_pos rfl] at hexec
      obtain rfl := Option.some.inj hexec
      exact h
    · obtain ⟨rfl, rfl⟩ := Prod.mk.inj (Option.some.inj (halloc.symm.trans halloc'))
      simp only [if_neg hp, ha, Option.getD_some] at hexec
      obtain rfl := Option.some.inj hexec
      refine ⟨⟨bs, L, hinv, htot⟩, rfl, rfl, ?_⟩
      simp only [fetchAdd, h.balance, List.length_cons]
      omega
  | dealloc ptr layout tsc =>
    obtain ⟨al, hal, rfl, hsize, halign, h8⟩ := hok
    obtain ⟨bs, L, hinv, rfl⟩ := h.heap
    obtain ⟨s', bs', L', hfree, hinv', htot⟩ :=
      exec_free_inv hinv hal (hinv.behind hal (halign ▸ h8))
    simp only [Books.exec, Global.dealloc, Option.bind_eq_bind, Option.bind_eq_some_iff] at hexec
    obtain ⟨g, ⟨tlsf, htlsf, hg⟩, hexec⟩ := hexec
    obtain rfl := Option.some.inj hg
    obtain rfl := Option.some.inj hexec
    simp only [Sys.exec, sys, htlsf, Option.bind_eq_bind, Option.bind_some] at hfree
    obtain rfl := Option.some.inj hfree
    have hperm := hinv.perm_filter hal
    have hlen := hperm.length_eq
    have hsum : al.size + inUse (b.live.filter (·.ptr ≠ al.ptr)) = inUse b.live :=
      (hperm.map Alloc.size).sum_eq
    have hle := hinv.inUse_le
    refine ⟨⟨bs', L', hinv', htot⟩, ?_, h.peak, ?_⟩
    · simp only [MonitorData.incFree, h.current, ← hsize]
      rw [fetchSub_of_le (by simp only [sys] at hle; omega) (by omega)]
      omega
    · simp only [MonitorData.incFree, h.balance, fetchAdd, sys, List.length_cons] at hlen ⊢
      omega
  | store addr byte =>
    obtain ⟨al, hal, h1, h2⟩ := hok
    obtain ⟨bs, L, hinv, htot⟩ := h.heap
    obtain rfl := Option.some.inj hexec
    exact ⟨⟨bs, L, exec_store_inv hinv hal h1 h2 rfl, htot⟩, h.current, h.peak, h.balance⟩
  | record e =>
    obtain rfl := Option.some.inj hexec
    exact ⟨h.heap, h.current, h.peak, h.balance⟩

/-- The books of a fresh heap. -/
def fresh (heap : TlsfAllocator) : Books := ⟨⟨heap, .new, TraceBuffer.new.init⟩, [], 0⟩

theorem run_inv {heap : TlsfAllocator} (hfresh : ∃ bs L, Sys.Inv H ⟨heap, []⟩ bs L ∧ total bs = n)
    (hn : n < 2 ^ 32) (hrun : Run exec Allowed (fresh heap) ops b) : b.Inv H n :=
  hrun.invariant (P := Inv H n) (fun _ _ _ h hok hexec => h.exec hn hok hexec)
    ⟨hfresh, rfl, rfl, rfl⟩

/-- Keeping the books never fails. -/
theorem Inv.isSome_alloc (h : b.Inv H n) (hn : n < 2 ^ 32) :
    (b.global.alloc layout tsc).isSome ↔
      (b.global.tlsf.malloc layout.size layout.align).isSome := by
  constructor
  · intro hs
    obtain ⟨r, hr⟩ := Option.isSome_iff_exists.mp hs
    obtain ⟨m, hm, -⟩ := Option.bind_eq_some_iff.mp hr
    rw [hm]
    rfl
  · intro hs
    obtain ⟨⟨p, tlsf⟩, hm⟩ := Option.isSome_iff_exists.mp hs
    rcases h.alloc_cases hn tsc hm with ⟨-, -, halloc⟩ | ⟨_, _, _, -, -, -, -, halloc⟩
    · rw [halloc]
      rfl
    · rw [halloc]
      rfl

/-- **The counters are exact**, in every run of the global allocator: the bytes in use are those of
the live allocations, the peak is the most there ever were, and allocations minus frees are the live
ones.  Adding them up never panics. -/
theorem metrics_exact (mem : Mem) (h0 : 0 < H) (h8 : H % 8 = 0) (hn8 : n % 8 = 0) (h32 : 32 ≤ n)
    (hn : n < 2 ^ 32) (hfits : H + n < 2 ^ 64) :
    ∃ heap, (TlsfAllocator.new mem).init H n = some heap ∧
      ∀ ops b, Run exec Allowed (fresh heap) ops b →
        b.global.monitor.currentAllocated = inUse b.live ∧ inUse b.live ≤ n ∧
        b.global.monitor.peakAllocated = b.high ∧
        b.global.monitor.allocCount = (b.global.monitor.freeCount + b.live.length) % 2 ^ 64 ∧
        ∀ layout tsc, (b.global.alloc layout tsc).isSome ↔
          (b.global.tlsf.malloc layout.size layout.align).isSome := by
  obtain ⟨heap, hinit, hfresh⟩ := init_inv mem h0 h8 hn8 h32 hn hfits
  refine ⟨heap, hinit, fun ops b hrun => ?_⟩
  have h := run_inv hfresh hn hrun
  exact ⟨h.current, h.inUse_le, h.peak, h.balance, fun _ _ => h.isSome_alloc hn⟩

def sixtyFour : Layout := .ofBytes 64 (by decide)

/-- 64 bytes and 32 bytes are taken, a timer interrupt is recorded, and the 64 bytes are freed. -/
def takeTwo : List GlobalOp :=
  [.alloc sixtyFour 10, .alloc (.ofBytes 32 (by decide)) 20, .record ⟨.interrupt, 32, 0, 25⟩,
    .dealloc 4104 sixtyFour 30]

theorem metrics_exact_takeTwo : ∃ heap b,
    (TlsfAllocator.new fun _ => 0xcc).init 4096 1024 = some heap ∧
      Run exec Allowed (fresh heap) takeTwo b ∧ b.live.map Alloc.size = [32] ∧
      b.global.monitor.currentAllocated = 32 ∧ b.global.monitor.peakAllocated = 96 := by
  obtain ⟨heap, hinit, hexact⟩ := metrics_exact (H := 4096) (n := 1024) (fun _ => 0xcc) (by decide)
    (by decide) (by decide) (by decide) (by decide) (by decide)
  have hgo : (((TlsfAllocator.new fun _ => 0xcc).init 4096 1024).bind fun heap =>
      runFrom exec Allowed (fresh heap) takeTwo).any
        (fun b => decide (b.live.map Alloc.size = [32]) && decide (b.high = 96)) = true := by
    decide +kernel
  simp only [hinit, Option.bind_some, Option.any_eq_true, Bool.and_eq_true, decide_eq_true_eq]
    at hgo
  obtain ⟨b, hb, hlive, hhigh⟩ := hgo
  have hrun := Run.of_runFrom hb
  obtain ⟨hcur, -, hpeak, -⟩ := hexact _ b hrun
  refine ⟨heap, b, hinit, hrun, hlive, ?_, hpeak.trans hhigh⟩
  rw [hcur, inUse, hlive]
  rfl

/-! ## The trace -/

/-- What a trace entry says about the live allocations, pointers with sizes. -/
def replayStep (live : List (ℕ × ℕ)) (e : TraceEntry) : List (ℕ × ℕ) :=
  if e.eventId = TraceEventId.alloc.code then (e.arg1, e.arg0) :: live
  else if e.eventId = TraceEventId.free.code then live.filter (·.1 ≠ e.arg1)
  else live

/-- The live allocations after the events of a trace. -/
def replay (es : List TraceEntry) : List (ℕ × ℕ) := es.foldl replayStep []

theorem replay_concat (es : List TraceEntry) (e : TraceEntry) :
    replay (es ++ [e]) = replayStep (replay es) e := by
  rw [replay, List.foldl_append]
  rfl

/-- The live allocations, pointers with sizes. -/
def holdings (b : Books) : List (ℕ × ℕ) := b.live.map fun al => (al.ptr, al.size)

/-- The trace has recorded a history that the ring has room for, and that replays to the live
allocations. -/
def Traced (b : Books) : Prop :=
  ∃ log, TraceBuffer.Records b.global.trace log ∧ log.length ≤ 4096 ∧ replay log = b.holdings

/-- One more event is recorded. -/
theorem Traced.record (h : b.Traced) (hidx : b.global.trace.writeIdx < 4096) {e : Trace.Call}
    (htrace : b'.global.trace = b.global.trace.record e)
    (hlive : replayStep b.holdings e.entry = b'.holdings) : b'.Traced := by
  obtain ⟨log, hrec, -, hreplay⟩ := h
  rw [hrec.writeIdx] at hidx
  refine ⟨log ++ [e.entry], ?_, ?_, ?_⟩
  · rw [htrace]
    exact hrec.record (by omega)
  · rwa [List.length_append, List.length_singleton]
  · rw [replay_concat, hreplay, hlive]

/-- **One step keeps the trace right.** -/
theorem Traced.exec (h : b.Traced) (hidx : b.global.trace.writeIdx < 4096) (hok : b.Allowed op)
    (hexec : b.exec op = some b') : b'.Traced := by
  cases op with
  | alloc layout tsc =>
    simp only [Books.exec, Global.alloc, Option.bind_eq_bind, Option.bind_eq_some_iff] at hexec
    obtain ⟨⟨p, g⟩, ⟨⟨p', tlsf⟩, -, halloc⟩, hexec⟩ := hexec
    by_cases hp : p' = 0
    · rw [if_pos hp] at halloc
      obtain ⟨rfl, rfl⟩ := Prod.mk.inj (Option.some.inj halloc)
      rw [if_pos hp] at hexec
      obtain rfl := Option.some.inj hexec
      exact h
    · rw [if_neg hp] at halloc
      obtain ⟨m, -, halloc⟩ := Option.bind_eq_some_iff.mp halloc
      obtain ⟨rfl, rfl⟩ := Prod.mk.inj (Option.some.inj halloc)
      rw [if_neg hp] at hexec
      obtain rfl := Option.some.inj hexec
      exact h.record hidx rfl rfl
  | dealloc ptr layout tsc =>
    simp only [Books.exec, Global.dealloc, Option.bind_eq_bind, Option.bind_eq_some_iff] at hexec
    obtain ⟨g, ⟨tlsf, -, hg⟩, hexec⟩ := hexec
    obtain rfl := Option.some.inj hg
    obtain rfl := Option.some.inj hexec
    refine h.record hidx rfl ?_
    exact List.filter_map
  | store addr byte =>
    obtain rfl := Option.some.inj hexec
    exact h
  | record e =>
    obtain rfl := Option.some.inj hexec
    refine h.record hidx rfl ?_
    -- no other event has one of the two codes
    obtain ⟨halloc, hfree⟩ := hok
    obtain ⟨id, arg0, arg1, tsc⟩ := e
    cases id <;> first | rfl | exact absurd rfl halloc | exact absurd rfl hfree

/-- **The trace replays to the live allocations**: in every run in which the ring is not
overwritten, whatever else is recorded, the entries that `dump_last` visits determine what is
live, with its pointers and sizes. -/
theorem trace_replays {heap : TlsfAllocator}
    (hrun : Run exec (fun b op => b.Allowed op ∧ b.global.trace.writeIdx < 4096) (fresh heap) ops
      b) :
    replay (b.global.trace.visited 4096) = b.holdings := by
  obtain ⟨log, hrec, hlen, hreplay⟩ : b.Traced :=
    hrun.invariant (P := Traced) (fun _ _ _ h hok hexec => h.exec hok.2 hok.1 hexec)
      ⟨[], TraceBuffer.records_init, Nat.zero_le _, rfl⟩
  have hall := hrec.visited_drop (n := 4096) (m := log.length) hlen (by omega)
  rw [min_eq_right hlen, Nat.sub_self, List.drop_zero, List.drop_zero] at hall
  rw [hall, hreplay]

theorem trace_replays_takeTwo : ∃ heap b,
    (TlsfAllocator.new fun _ => 0xcc).init 4096 1024 = some heap ∧
      Run exec (fun b op => b.Allowed op ∧ b.global.trace.writeIdx < 4096) (fresh heap) takeTwo b ∧
      replay (b.global.trace.visited 4096) = b.holdings ∧ b.holdings.length = 1 := by
  have hgo : (((TlsfAllocator.new fun _ => 0xcc).init 4096 1024).any fun heap =>
      (runFrom exec (fun b op => b.Allowed op ∧ b.global.trace.writeIdx < 4096) (fresh heap)
        takeTwo).any fun b => decide (b.holdings.length = 1)) = true := by
    decide +kernel
  simp only [Option.any_eq_true, decide_eq_true_eq] at hgo
  obtain ⟨heap, hinit, b, hb, hlen⟩ := hgo
  have hrun := Run.of_runFrom hb
  exact ⟨heap, b, hinit, hrun, trace_replays hrun, hlen⟩

end Books

end YontiOs.Tlsf
