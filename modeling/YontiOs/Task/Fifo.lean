import YontiOs.Task.ArrayQueue

/-!
# Task/Fifo — the ring buffer is a bounded FIFO

`Fifo.exec` is a bounded queue as a list.  `ArrayQueue.exec` is the ring buffer under the same
calls, which come from any number of producers and consumers, one at a time since each runs with
interrupts disabled.  As long as fewer than `2 ^ 64` pushes are taken the two give the same replies,
and every slot read holds a value that was pushed and not yet popped (`ArrayQueue.refines_fifo`).

The simulation `Simulates` is between what is unread and the list; the slots of unread elements stay
apart while the counters have not wrapped (`ArrayQueue.Unwrapped.slot_ne`).
-/

namespace YontiOs

/-- A call of a producer or a consumer. -/
inductive QueueCall (α : Type*) where
  | push (value : α)
  | pop
  | isEmpty

/-- What a call returns; a popped value is `none` where the slot was never written. -/
inductive QueueReply (α : Type*) where
  | pushed
  | full (value : α)
  | popped (value : Option α)
  | popError
  | isEmpty (b : Bool)
deriving DecidableEq

/-- How many pushes were taken. -/
def QueueReply.pushes {α : Type*} (rs : List (QueueReply α)) : ℕ :=
  rs.countP fun | .pushed => true | _ => false

variable {α : Type*} {c n : ℕ} {l : List α}

/-- The bounded queue: a push appends while there is room, a pop takes the oldest element. -/
def Fifo.exec (c : ℕ) (l : List α) : QueueCall α → QueueReply α × List α
  | .push value => if l.length < c then (.pushed, l ++ [value]) else (.full value, l)
  | .pop =>
    match l with
    | [] => (.popError, [])
    | value :: l => (.popped (some value), l)
  | .isEmpty => (.isEmpty l.isEmpty, l)

/-- The replies to a list of calls, and the elements it leaves. -/
def Fifo.run (c : ℕ) (l : List α) : List (QueueCall α) → List (QueueReply α) × List α
  | [] => ([], l)
  | call :: calls =>
    let (reply, l) := exec c l call
    let (replies, l) := run c l calls
    (reply :: replies, l)

namespace ArrayQueue

variable {q q' : ArrayQueue α} {live : Finset ℕ} {v : α}

def exec (q : ArrayQueue α) : QueueCall α → QueueReply α × ArrayQueue α
  | .push value =>
    match q.push value with
    | some q => (.pushed, q)
    | none => (.full value, q)
  | .pop =>
    match q.pop with
    | some (value, q) => (.popped value, q)
    | none => (.popError, q)
  | .isEmpty => (.isEmpty q.isEmpty, q)

def run (q : ArrayQueue α) : List (QueueCall α) → List (QueueReply α) × ArrayQueue α
  | [] => ([], q)
  | call :: calls =>
    let (reply, q) := q.exec call
    let (replies, q) := q.run calls
    (reply :: replies, q)

/-- The slots that hold a value pushed and not yet popped, after a call. -/
def liveAfter (q : ArrayQueue α) (live : Finset ℕ) : QueueCall α → Finset ℕ
  | .push value => if (q.push value).isSome then insert (q.slot q.tail) live else live
  | .pop => if q.pop.isSome then live.erase (q.slot q.head) else live
  | .isEmpty => live

/-- **Every slot read is live**: it is one of those that hold a value pushed and not yet popped. -/
def ReadsLive (q : ArrayQueue α) (live : Finset ℕ) : List (QueueCall α) → Prop
  | [] => True
  | call :: calls =>
    (∀ value q', call = .pop → q.pop = some (value, q') → q.slot q.head ∈ live ∧ value.isSome) ∧
      ReadsLive (q.exec call).2 (q.liveAfter live call) calls

/-- **A push appends** while the counters have not wrapped. -/
theorem Unwrapped.unread_push (h : q.Unwrapped n) (hn : n + 1 < 2 ^ 64) (hq : q.push v = some q') :
    q'.unread = q.unread ++ [some v] := by
  have hlen : q.len + 1 < 2 ^ 64 := by have := h.len_le; omega
  have hlt := len_lt_of_push hlen hq
  refine unread_push_of_ne hlen hq fun i hi => ?_
  have hne := h.slot_ne hi le_rfl (by omega)
  rwa [head_add_len] at hne

/-- **The ring buffer holds the list**, each element in a live slot. -/
structure Simulates (q : ArrayQueue α) (live : Finset ℕ) (l : List α) (n : ℕ) : Prop where
  unwrapped : q.Unwrapped n
  contents : q.unread = l.map some
  live : ∀ i < q.len, q.slot (q.head + BitVec.ofNat 64 i) ∈ live

namespace Simulates

theorem new (hpos : 0 < c) (hlt : c < 2 ^ 64) (hslice : Nontrivial α → c < 2 ^ 63) :
    (ArrayQueue.new c hpos hlt hslice : ArrayQueue α).Simulates ∅ [] 0 :=
  ⟨.new hpos hlt hslice, unread_eq_nil.mpr rfl, fun i hi =>
    absurd hi (by rw [len_eq_zero.mpr rfl]; omega)⟩

theorem len_eq (h : q.Simulates live l n) : q.len = l.length := by
  have := congrArg List.length h.contents
  rwa [unread, List.length_map, List.length_range, List.length_map] at this

/-- A push that is taken. -/
theorem push (h : q.Simulates live l n) (hn : n + 1 < 2 ^ 64) (hq : q.push v = some q') :
    q'.Simulates (insert (q.slot q.tail) live) (l ++ [v]) (n + 1) := by
  have hlen : q.len + 1 < 2 ^ 64 := by have := h.unwrapped.len_le; omega
  obtain ⟨hhead, -, -, -⟩ := push_eq_some hq
  refine ⟨h.unwrapped.push hn hq, ?_, fun i hi => ?_⟩
  · rw [h.unwrapped.unread_push hn hq, h.contents, List.map_append, List.map_singleton]
  · rw [len_push hlen hq] at hi
    rw [slot_push hq, hhead]
    rcases Nat.lt_succ_iff_lt_or_eq.mp hi with hi | rfl
    · exact Finset.mem_insert_of_mem (h.live i hi)
    · rw [head_add_len]
      exact Finset.mem_insert_self _ _

/-- A pop that succeeds returns the first element of the list, from a live slot. -/
theorem pop {o : Option α} (h : q.Simulates live l n) (hq : q.pop = some (o, q')) :
    ∃ v l', l = v :: l' ∧ o = some v ∧ q.slot q.head ∈ live ∧
      q'.Simulates (live.erase (q.slot q.head)) l' n := by
  have hunread := unread_pop hq
  rw [h.contents] at hunread
  obtain ⟨v, l', rfl, hv, hrest⟩ := List.map_eq_cons_iff.mp hunread
  obtain ⟨hne, -, hhead, htail, hcap, -⟩ := pop_eq_some hq
  have hlen := len_pop hne
  have hle : q.len ≤ q.capacity := q.len_le
  have hzero : q.head = q.head + BitVec.ofNat 64 0 := by simp
  refine ⟨v, l', rfl, hv.symm, ?_, h.unwrapped.pop hq, hrest.symm, fun i hi => ?_⟩
  · rw [hzero]
    exact h.live 0 (by omega)
  · have hi' : i + 1 < q.len := by
      rw [len, hhead, htail] at hi
      omega
    have hslot : q'.slot (q'.head + BitVec.ofNat 64 i) =
        q.slot (q.head + BitVec.ofNat 64 (i + 1)) := by
      rw [slot, slot, hcap, hhead, BitVec.ofNat_add, BitVec.add_assoc, BitVec.add_comm
        (1 : BitVec 64)]
      rfl
    rw [hslot]
    refine Finset.mem_erase.mpr ⟨?_, h.live (i + 1) hi'⟩
    conv_rhs => rw [hzero]
    exact (h.unwrapped.slot_ne (Nat.succ_pos i) hi'.le (by omega)).symm

/-- **One call**: the replies agree and so do the queues after it. -/
theorem exec (h : q.Simulates live l n) (call : QueueCall α)
    (hn : n + QueueReply.pushes [(q.exec call).1] < 2 ^ 64) :
    (q.exec call).1 = (Fifo.exec q.capacity l call).1 ∧
      (q.exec call).2.capacity = q.capacity ∧
      (q.exec call).2.Simulates (q.liveAfter live call) (Fifo.exec q.capacity l call).2
        (n + QueueReply.pushes [(q.exec call).1]) := by
  have hlen := h.len_eq
  cases call with
  | push v =>
    rw [ArrayQueue.exec, Fifo.exec, liveAfter] at *
    rcases hq : q.push v with _ | q'
    · have hfull : ¬ l.length < q.capacity := fun hlt => by
        have := (push_eq_none (v := v) (by have := q.capacity_lt; omega)).mp hq
        omega
      rw [if_neg hfull]
      exact ⟨rfl, rfl, h⟩
    · rw [hq] at hn
      have hn : n + 1 < 2 ^ 64 := hn
      have hlt := len_lt_of_push (by have := h.unwrapped.len_le; omega) hq
      rw [if_pos (by omega : l.length < q.capacity)]
      exact ⟨rfl, (push_eq_some hq).2.2.1, h.push hn hq⟩
  | pop =>
    rw [ArrayQueue.exec, liveAfter]
    rcases hq : q.pop with _ | ⟨o, q'⟩
    · have hnil : l = [] := List.map_eq_nil_iff.mp (h.contents.symm.trans (pop_eq_none.mp hq))
      subst hnil
      exact ⟨rfl, rfl, h⟩
    · obtain ⟨v, l', rfl, rfl, -, h'⟩ := h.pop hq
      exact ⟨rfl, (pop_eq_some hq).2.2.2.2.1, h'⟩
  | isEmpty =>
    refine ⟨congrArg QueueReply.isEmpty ?_, rfl, h⟩
    rw [Bool.eq_iff_iff, isEmpty_iff, h.contents, List.map_eq_nil_iff, List.isEmpty_iff]

/-- **A list of calls**, as long as fewer than `2 ^ 64` pushes are taken. -/
theorem run (h : q.Simulates live l n) (calls : List (QueueCall α))
    (hn : n + QueueReply.pushes (q.run calls).1 < 2 ^ 64) :
    (q.run calls).1 = (Fifo.run q.capacity l calls).1 ∧
      (q.run calls).2.unread = (Fifo.run q.capacity l calls).2.map some ∧
      (Fifo.run q.capacity l calls).2.length ≤ q.capacity ∧ q.ReadsLive live calls := by
  induction calls generalizing q live l n with
  | nil => exact ⟨rfl, h.contents, h.len_eq ▸ q.len_le, trivial⟩
  | cons call calls ih =>
    have hsplit : QueueReply.pushes (q.run (call :: calls)).1 =
        QueueReply.pushes [(q.exec call).1] + QueueReply.pushes ((q.exec call).2.run calls).1 :=
      show List.countP _ ([(q.exec call).1] ++ _) = _ from List.countP_append
    rw [hsplit] at hn
    obtain ⟨hreply, hcap, h'⟩ := h.exec call (by omega)
    obtain ⟨hreplies, hcontents, hlen, hreads⟩ := ih h' (by omega)
    rw [hcap] at hreplies hcontents hlen
    refine ⟨congrArg₂ List.cons hreply hreplies, hcontents, hlen, ?_, hreads⟩
    rintro o q' rfl hq
    obtain ⟨v, l', -, rfl, hlive, -⟩ := h.pop hq
    exact ⟨hlive, rfl⟩

end Simulates

/-- **`ArrayQueue` is a bounded FIFO**: under any calls of which fewer than `2 ^ 64` are pushes that
are taken, it replies as the list does, holds the list's elements, at most `c`, and reads only slots
that hold a value pushed and not yet popped. -/
theorem refines_fifo (hpos : 0 < c) (hlt : c < 2 ^ 64) (hslice : Nontrivial α → c < 2 ^ 63)
    (calls : List (QueueCall α))
    (hfew : QueueReply.pushes ((new c hpos hlt hslice).run calls).1 < 2 ^ 64) :
    ((new c hpos hlt hslice).run calls).1 = (Fifo.run c [] calls).1 ∧
      ((new c hpos hlt hslice).run calls).2.unread = (Fifo.run c [] calls).2.map some ∧
      (Fifo.run c [] calls).2.length ≤ c ∧ (new c hpos hlt hslice).ReadsLive ∅ calls :=
  (Simulates.new hpos hlt hslice).run calls (by rwa [Nat.zero_add])

theorem refines_fifo_two :
    let calls : List (QueueCall ℕ) :=
      [.push 1, .push 2, .push 3, .pop, .push 4, .pop, .pop, .pop, .isEmpty]
    let q := new 2 (by decide) (by decide) (fun _ => by decide)
    (q.run calls).1 = [.pushed, .pushed, .full 3, .popped (some 1), .pushed, .popped (some 2),
      .popped (some 4), .popError, .isEmpty true] ∧ q.ReadsLive ∅ calls := by
  intro calls q
  obtain ⟨hreplies, -, -, hreads⟩ := refines_fifo (c := 2) (by decide) (by decide)
    (fun _ => by decide) calls (by decide)
  exact ⟨hreplies.trans (by decide), hreads⟩

end ArrayQueue

end YontiOs
