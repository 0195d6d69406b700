import YontiOs.Task.Fifo
import YontiOs.Task.Keyboard

/-!
# Task/Delivery — every scancode the interrupt handler accepts reaches the reader, once and in order

`Stream` is the machine of `Task/Keyboard` with two histories: the scancodes that `add_scancode` put
into the queue, and those that `poll_next` has returned.  However interrupts, wakes, other tasks and
the sleep are interleaved, what was accepted is what was delivered followed by what still waits
(`scancodes_in_order`); a scancode is turned down only before the stream exists and when 100 wait.
-/

namespace YontiOs.Task

/-- The kernel, the scancodes its interrupt handler has accepted, and those its reader has got. -/
structure Stream where
  kernel : Kernel
  accepted : List UInt8
  delivered : List UInt8

namespace Kernel

/-- The scancode an event puts into the queue. -/
def accepts (k : Kernel) : Event → List UInt8
  | .key scancode =>
    if ∃ queue ∈ k.scancodes, (queue.push scancode).isSome then [scancode] else []
  | _ => []

/-- The scancode an event takes out of the queue, for the reader to handle. -/
def delivers (k : Kernel) : Event → List UInt8
  | .consume =>
    if k.pc = .first ∨ k.pc = .second then
      ((k.scancodes.bind ArrayQueue.pop).bind Prod.fst).toList
    else []
  | _ => []

end Kernel

namespace Stream

def start : Stream := ⟨.start, [], []⟩

def step (reader : TaskId) (s : Stream) (e : Event) : Option Stream := do
  let kernel ← s.kernel.step reader e
  some ⟨kernel, s.accepted ++ s.kernel.accepts e, s.delivered ++ s.kernel.delivers e⟩

/-- The queue's counter has room. -/
def Counted (s : Stream) (_ : Event) : Prop := s.accepted.length + 1 < 2 ^ 64

instance (s : Stream) (e : Event) : Decidable (s.Counted e) :=
  inferInstanceAs (Decidable (_ < _))

/-- **What was accepted is what was delivered, then what waits.** -/
structure Inv (s : Stream) : Prop where
  fresh : s.kernel.scancodes = none → s.accepted = [] ∧ s.delivered = []
  queued : ∀ queue ∈ s.kernel.scancodes, queue.Unwrapped s.accepted.length ∧
    queue.capacity = maxScancodes ∧
    s.accepted.map some = s.delivered.map some ++ queue.unread

end Stream

variable {reader : TaskId} {k k' : Kernel} {s s' : Stream} {e : Event} {events : List Event}
  {scancode : UInt8} {queue : ArrayQueue UInt8}

/-! ## What touches the queue -/

namespace Kernel

/-- The executor's loop does not. -/
theorem scancodes_loop (reader : TaskId) (e : Event) (h : k.loop reader e = some k') :
    k'.scancodes = k.scancodes := by
  cases e with
  | spawn id =>
    rw [loop] at h
    split_ifs at h
    obtain ⟨ex, -, hk'⟩ := Option.bind_eq_some_iff.mp h
    obtain rfl := Option.some.inj hk'
    rfl
  | pop =>
    rw [loop] at h
    split_ifs at h
    split at h
    · obtain rfl := Option.some.inj h
      rfl
    · cases h
    · obtain rfl := Option.some.inj h
      rfl
  | begin =>
    rw [loop] at h
    split at h
    · split_ifs at h <;> obtain rfl := Option.some.inj h <;> rfl
    · cases h
  | finish done =>
    rw [loop] at h
    split at h
    · obtain rfl := Option.some.inj h
      rfl
    · cases h
  | run | disable | check =>
    rw [loop] at h
    split_ifs at h <;> obtain rfl := Option.some.inj h <;> rfl
  | consume | wake _ | key _ | interrupt => cases h

/-- **The reader** creates the queue, or takes its first scancode, or leaves it alone. -/
theorem scancodes_consume (h : k.consume reader = some k') :
    (k'.scancodes = k.scancodes ∧ k.delivers .consume = []) ∨
      (k.scancodes = none ∧ k.delivers .consume = [] ∧
        k'.scancodes = some (.new maxScancodes (by decide) (by decide) (fun _ => by decide))) ∨
      ∃ queue v queue', k.scancodes = some queue ∧ queue.pop = some (some v, queue') ∧
        k'.scancodes = some queue' ∧ k.delivers .consume = [v] := by
  rw [consume] at h
  split at h
  case h_1 hpc hnone =>
    obtain rfl := Option.some.inj h
    exact .inr (.inl ⟨hnone, if_neg (by simp [hpc]), rfl⟩)
  case h_2 queue hpc hqueue =>
    have hdel : k.delivers .consume = (queue.pop.bind Prod.fst).toList := by
      rw [delivers, if_pos (.inl hpc), hqueue, Option.bind_some]
    split at h
    · rename_i hpop
      obtain rfl := Option.some.inj h
      exact .inl ⟨rfl, by rw [hdel, hpop]; rfl⟩
    · cases h
    · rename_i v queue' hpop
      obtain rfl := Option.some.inj h
      exact .inr (.inr ⟨queue, v, queue', hqueue, hpop, rfl, by rw [hdel, hpop]; rfl⟩)
  case h_3 hpc =>
    obtain rfl := Option.some.inj h
    exact .inl ⟨rfl, if_neg (by simp [hpc])⟩
  case h_4 queue hpc hqueue =>
    have hdel : k.delivers .consume = (queue.pop.bind Prod.fst).toList := by
      rw [delivers, if_pos (.inr hpc), hqueue, Option.bind_some]
    split at h
    · rename_i hpop
      obtain rfl := Option.some.inj h
      exact .inl ⟨rfl, by rw [hdel, hpop]; rfl⟩
    · cases h
    · rename_i v queue' hpop
      obtain rfl := Option.some.inj h
      exact .inr (.inr ⟨queue, v, queue', hqueue, hpop, rfl, by rw [hdel, hpop]; rfl⟩)
  case h_5 hpc =>
    obtain rfl := Option.some.inj h
    exact .inl ⟨rfl, if_neg (by simp [hpc])⟩
  case h_6 hpc =>
    obtain rfl := Option.some.inj h
    exact .inl ⟨rfl, if_neg (by simp [hpc])⟩
  case h_7 => cases h

theorem scancodes_wakeReader (k : Kernel) : k.wakeReader.scancodes = k.scancodes := by
  unfold wakeReader
  split <;> rfl

/-- **The interrupt handler** appends what it accepts. -/
theorem scancodes_addScancode (k : Kernel) (scancode : UInt8) :
    ((k.addScancode scancode).scancodes = k.scancodes ∧ k.accepts (.key scancode) = []) ∨
    ∃ queue queue', k.scancodes = some queue ∧ queue.push scancode = some queue' ∧
      (k.addScancode scancode).scancodes = some queue' ∧
      k.accepts (.key scancode) = [scancode] := by
  rw [addScancode, accepts]
  rcases hqueue : k.scancodes with _ | queue
  · exact .inl ⟨hqueue, if_neg (by simp)⟩
  · dsimp only
    rcases hpush : queue.push scancode with _ | queue'
    · exact .inl ⟨hqueue, if_neg (by simp [hpush])⟩
    · refine .inr ⟨queue, queue', rfl, hpush, ?_, if_pos ⟨queue, rfl, by rw [hpush]; rfl⟩⟩
      exact scancodes_wakeReader _

/-- **What a step does to the queue.** -/
theorem scancodes_step (h : k.step reader e = some k') :
    (k'.scancodes = k.scancodes ∧ k.accepts e = [] ∧ k.delivers e = []) ∨
      (k.scancodes = none ∧ k.accepts e = [] ∧ k.delivers e = [] ∧
        k'.scancodes = some (.new maxScancodes (by decide) (by decide) (fun _ => by decide))) ∨
      (∃ queue v queue', k.scancodes = some queue ∧ queue.pop = some (some v, queue') ∧
        k'.scancodes = some queue' ∧ k.accepts e = [] ∧ k.delivers e = [v]) ∨
      ∃ queue v queue', k.scancodes = some queue ∧ queue.push v = some queue' ∧
        k'.scancodes = some queue' ∧ k.accepts e = [v] ∧ k.delivers e = [] := by
  cases e with
  | consume =>
    rcases scancodes_consume h with ⟨h1, h2⟩ | ⟨h1, h2, h3⟩ | ⟨queue, v, queue', h1, h2, h3, h4⟩
    · exact .inl ⟨h1, rfl, h2⟩
    · exact .inr (.inl ⟨h1, rfl, h2, h3⟩)
    · exact .inr (.inr (.inl ⟨queue, v, queue', h1, h2, h3, rfl, h4⟩))
  | key scancode =>
    dsimp only [step] at h
    split_ifs at h
    obtain rfl := Option.some.inj h
    rcases scancodes_addScancode k scancode with ⟨h1, h2⟩ | ⟨queue, queue', h1, h2, h3, h4⟩
    · exact .inl ⟨h1, h2, rfl⟩
    · exact .inr (.inr (.inr ⟨queue, scancode, queue', h1, h2, h3, h4, rfl⟩))
  | wake id =>
    dsimp only [step] at h
    split_ifs at h
    obtain rfl := Option.some.inj h
    exact .inl ⟨rfl, rfl, rfl⟩
  | interrupt =>
    dsimp only [step] at h
    split_ifs at h
    obtain rfl := Option.some.inj h
    exact .inl ⟨rfl, rfl, rfl⟩
  | spawn id => exact .inl ⟨scancodes_loop reader (.spawn id) h, rfl, rfl⟩
  | run => exact .inl ⟨scancodes_loop reader .run h, rfl, rfl⟩
  | pop => exact .inl ⟨scancodes_loop reader .pop h, rfl, rfl⟩
  | begin => exact .inl ⟨scancodes_loop reader .begin h, rfl, rfl⟩
  | finish done => exact .inl ⟨scancodes_loop reader (.finish done) h, rfl, rfl⟩
  | disable => exact .inl ⟨scancodes_loop reader .disable h, rfl, rfl⟩
  | check => exact .inl ⟨scancodes_loop reader .check h, rfl, rfl⟩

end Kernel

/-! ## The histories -/

namespace Stream

theorem inv_start : start.Inv := ⟨fun _ => ⟨rfl, rfl⟩, fun _ h => nomatch h⟩

/-- **One step keeps the order.** -/
theorem Inv.step (h : s.Inv) (hok : s.Counted e) (hstep : s.step reader e = some s') : s'.Inv := by
  obtain ⟨k', hk, hs'⟩ := Option.bind_eq_some_iff.mp hstep
  obtain rfl := Option.some.inj hs'
  rcases Kernel.scancodes_step hk with ⟨hq, ha, hd⟩ | ⟨hnone, ha, hd, hq⟩ |
    ⟨queue, v, queue', hqueue, hpop, hq, ha, hd⟩ | ⟨queue, v, queue', hqueue, hpush, hq, ha, hd⟩
  · rw [ha, hd, List.append_nil, List.append_nil]
    exact ⟨fun hn => h.fresh (hq ▸ hn), fun queue hmem => h.queued queue (hq ▸ hmem)⟩
  · rw [ha, hd, List.append_nil, List.append_nil]
    obtain ⟨hacc, hdel⟩ := h.fresh hnone
    refine ⟨fun hn => (nomatch hq.symm.trans hn), fun queue hmem => ?_⟩
    obtain rfl := Option.some.inj (hq.symm.trans hmem)
    rw [hacc, hdel]
    exact ⟨.new _ _ _, rfl, (ArrayQueue.unread_eq_nil.mpr rfl).symm⟩
  · obtain ⟨hun, hcap, heq⟩ := h.queued queue hqueue
    rw [ha, hd, List.append_nil]
    refine ⟨fun hn => (nomatch hq.symm.trans hn), fun queue₁ hmem => ?_⟩
    obtain rfl := Option.some.inj (hq.symm.trans hmem)
    refine ⟨hun.pop hpop, ?_, ?_⟩
    · obtain ⟨-, -, -, -, hcap', -⟩ := ArrayQueue.pop_eq_some hpop
      exact hcap'.trans hcap
    · rw [heq, ArrayQueue.unread_pop hpop]
      simp
  · obtain ⟨hun, hcap, heq⟩ := h.queued queue hqueue
    rw [ha, hd, List.append_nil]
    refine ⟨fun hn => (nomatch hq.symm.trans hn), fun queue₁ hmem => ?_⟩
    obtain rfl := Option.some.inj (hq.symm.trans hmem)
    refine ⟨?_, ?_, ?_⟩
    · rw [List.length_append, List.length_singleton]
      exact hun.push hok hpush
    · obtain ⟨-, -, hcap', -⟩ := ArrayQueue.push_eq_some hpush
      exact hcap'.trans hcap
    · rw [List.map_append, heq, hun.unread_push hok hpush]
      simp

/-- **Every accepted scancode reaches the reader once and in order**, in every interleaving of its
poll with interrupts, wakes, other tasks and the sleep: what was accepted is what was delivered,
followed by the at most 100 scancodes that wait.  The next one is turned down exactly if there is no
queue yet or 100 are waiting. -/
theorem scancodes_in_order (hrun : Run (step reader) Counted start events s) :
    ∃ unread : List UInt8, s.accepted = s.delivered ++ unread ∧ unread.length ≤ 100 ∧
      (∀ queue ∈ s.kernel.scancodes, queue.unread = unread.map some) ∧
      ∀ scancode, s.kernel.accepts (.key scancode) = [] ↔
        s.kernel.scancodes = none ∨ unread.length = 100 := by
  have h : s.Inv := hrun.invariant (P := Inv) (fun _ _ _ h hok hstep => h.step hok hstep) inv_start
  rcases hqueue : s.kernel.scancodes with _ | queue
  · obtain ⟨hacc, hdel⟩ := h.fresh hqueue
    refine ⟨[], by rw [hacc, hdel]; rfl, Nat.zero_le _, fun _ hmem => (nomatch hmem), fun c => ?_⟩
    refine iff_of_true ?_ (.inl rfl)
    rw [Kernel.accepts, hqueue]
    exact if_neg (by simp)
  · obtain ⟨-, hcap, heq⟩ := h.queued queue hqueue
    -- what is unread is the rest of what was accepted
    have hunread : queue.unread = (s.accepted.drop s.delivered.length).map some := by
      rw [List.map_drop, heq, List.drop_left' (by rw [List.length_map])]
    have hacc : s.accepted = s.delivered ++ s.accepted.drop s.delivered.length := by
      refine List.map_injective_iff.mpr (Option.some_injective _) ?_
      rw [List.map_append, ← hunread, heq]
    have hlen : queue.len = (s.accepted.drop s.delivered.length).length := by
      have := congrArg List.length hunread
      rwa [ArrayQueue.unread, List.length_map, List.length_range, List.length_map] at this
    have hle : queue.len ≤ queue.capacity := queue.len_le
    refine ⟨s.accepted.drop s.delivered.length, hacc, ?_, fun q hq => ?_, fun c => ?_⟩
    · rw [← hlen]
      exact hle.trans_eq hcap
    · obtain rfl := Option.some.inj hq
      exact hunread
    · rw [← hlen, Kernel.accepts, hqueue]
      have hfull := ArrayQueue.push_eq_none (v := c) (ArrayQueue.len_succ_lt queue)
      rw [hcap] at hfull
      rw [show (100 : ℕ) = maxScancodes from rfl, ← hfull]
      rcases hpush : queue.push c with _ | q
      · exact iff_of_true (if_neg (by simp [hpush])) (.inr rfl)
      · exact iff_of_false (by simp [hpush]) (by simp)

/-- The reader has taken the first of three scancodes. -/
def threeKeys : List Event :=
  [.spawn 0, .key 29, .run, .pop, .begin, .consume, .key 30, .consume, .consume, .key 48, .key 31]

theorem scancodes_in_order_threeKeys : ∃ s, Run (step 0) Counted start threeKeys s ∧
    s.delivered = [30] ∧ s.accepted = [30, 48, 31] ∧
    ∃ unread : List UInt8, s.accepted = s.delivered ++ unread ∧ unread = [48, 31] := by
  have hgo : ((runFrom (step 0) Counted start threeKeys).any fun s =>
      decide (s.delivered = [30]) && decide (s.accepted = [30, 48, 31])) = true := by
    decide +kernel
  simp only [Option.any_eq_true, Bool.and_eq_true, decide_eq_true_eq] at hgo
  obtain ⟨s, hs, hdel, hacc⟩ := hgo
  have hrun := Run.of_runFrom hs
  obtain ⟨unread, heq, -⟩ := scancodes_in_order hrun
  refine ⟨s, hrun, hdel, hacc, unread, heq, ?_⟩
  rw [hdel, hacc] at heq
  exact (List.cons.inj heq).2.symm

end Stream

end YontiOs.Task
