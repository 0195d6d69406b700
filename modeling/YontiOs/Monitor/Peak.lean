import YontiOs.Machinery.Run
import YontiOs.Monitor.Counters

/-!
# Monitor/Peak — the peak is exact, whatever interrupts it

Between the atomic operations of `inc_alloc` other contexts may allocate, free and raise the peak
themselves.  A value that `current_allocated` had is then either counted in the peak or carried by
a call that is still to raise it (`Inv.attained`).  So the peak lags behind calls in flight only:
when there are none it is the largest value `current_allocated` has had (`peak_exact`).
-/

namespace YontiOs.Monitor

/-- The bytes in use that a call has brought about and is still to compare with the peak. -/
def Call.pending : Call → Option ℕ
  | .load new | .loop new _ => some new
  | _ => none

namespace Contexts

variable {κ : Type} {s s' : Contexts κ} {c c' : κ} {a : Act} {data : MonitorData} {call : Call}
  {is : List (κ × Act)}

/-- What every interleaving keeps. -/
structure Inv (s : Contexts κ) : Prop where
  high_lt : s.high < 2 ^ 64
  current_le : s.data.currentAllocated ≤ s.high
  peak_le : s.data.peakAllocated ≤ s.high
  pending_le : ∀ c, ∀ new ∈ (s.call c).pending, new ≤ s.high
  /-- The peak only rises, so what a loop has seen of it is a lower bound. -/
  seen_le : ∀ c new peak, s.call c = .loop new peak → peak ≤ s.data.peakAllocated
  attained : s.data.peakAllocated = s.high ∨ ∃ c, (s.call c).pending = some s.high

theorem inv_start : (start : Contexts κ).Inv :=
  ⟨Nat.two_pow_pos 64, le_rfl, le_rfl, fun _ _ h => (nomatch h), fun _ _ _ h => (nomatch h),
    .inl rfl⟩

variable [DecidableEq κ]

@[simp] theorem call_goto_self : (s.goto c data call).call c = call := Function.update_self _ _ _

theorem call_goto_of_ne (h : c' ≠ c) : (s.goto c data call).call c' = s.call c' :=
  Function.update_of_ne h _ _

/-- **What a step does**: it raises or lowers the bytes in use, loads the peak, raises it, or finds
it high enough. -/
theorem step_cases (hok : s.Allowed (c, a)) (hlt : s.data.currentAllocated < 2 ^ 64)
    (h : s.step (c, a) = some s') : ∃ data call, s' = s.goto c data call ∧
      ((s.call c).pending = none ∧ call.pending = none ∧
          data.peakAllocated = s.data.peakAllocated ∧
          data.currentAllocated ≤ s.data.currentAllocated ∨
        (s.call c).pending = none ∧ call = .load data.currentAllocated ∧
          data.peakAllocated = s.data.peakAllocated ∧ data.currentAllocated < 2 ^ 64 ∨
        data.currentAllocated = s.data.currentAllocated ∧
          ∃ new ∈ (s.call c).pending,
            (data.peakAllocated = s.data.peakAllocated ∧ call = .loop new s.data.peakAllocated ∨
              call = .idle ∧ data.peakAllocated = new ∧ s.data.peakAllocated ≤ new ∨
              call = .idle ∧ data.peakAllocated = s.data.peakAllocated ∧
                ∃ peak, s.call c = .loop new peak ∧ new ≤ peak)) := by
  cases a with
  | incAlloc size =>
    rw [step] at h
    split_ifs at h with hidle
    exact ⟨_, _, (Option.some.inj h).symm, .inl ⟨by rw [hidle]; rfl, rfl, rfl, le_rfl⟩⟩
  | incFree size =>
    rw [step] at h
    split_ifs at h with hidle
    exact ⟨_, _, (Option.some.inj h).symm, .inl ⟨by rw [hidle]; rfl, rfl, rfl, le_rfl⟩⟩
  | next fails =>
    rw [step] at h
    rcases hcall : s.call c with _ | size | new | ⟨new, peak⟩ | size
    · rw [hcall] at h
      exact nomatch h
    · rw [hcall] at h
      obtain ⟨new, hnew, h⟩ := Option.bind_eq_some_iff.mp h
      obtain ⟨rfl, hfits⟩ := Word.add_eq_some hnew
      refine ⟨_, _, (Option.some.inj h).symm, .inr (.inl ⟨rfl, ?_, rfl, ?_⟩)⟩
      · dsimp only
        rw [fetchAdd_of_lt hfits]
      · dsimp only
        rwa [fetchAdd_of_lt hfits]
    · rw [hcall] at h
      exact ⟨_, _, (Option.some.inj h).symm, .inr (.inr ⟨rfl, new, rfl, .inl ⟨rfl, rfl⟩⟩)⟩
    · rw [hcall] at h
      dsimp only at h
      split_ifs at h with hgt hcas
      · obtain ⟨rfl, -⟩ := hcas
        exact ⟨_, _, (Option.some.inj h).symm,
          .inr (.inr ⟨rfl, new, rfl, .inr (.inl ⟨rfl, rfl, hgt.le⟩)⟩)⟩
      · exact ⟨_, _, (Option.some.inj h).symm, .inr (.inr ⟨rfl, new, rfl, .inl ⟨rfl, rfl⟩⟩)⟩
      · exact ⟨_, _, (Option.some.inj h).symm,
          .inr (.inr ⟨rfl, new, rfl, .inr (.inr ⟨rfl, rfl, peak, rfl, not_lt.mp hgt⟩)⟩)⟩
    · rw [hcall] at h
      refine ⟨_, _, (Option.some.inj h).symm, .inl ⟨rfl, rfl, rfl, ?_⟩⟩
      dsimp only
      rw [fetchSub_of_le hlt (hok size (by rw [hcall]; rfl))]
      exact Nat.sub_le _ _

/-- A context moves on: its own call is to be checked, and that the peak has not fallen. -/
theorem Inv.goto (h : s.Inv) (hcurrent : data.currentAllocated < 2 ^ 64)
    (hpeak : s.data.peakAllocated ≤ data.peakAllocated)
    (hle : data.peakAllocated ≤ max s.high data.currentAllocated)
    (hpending : ∀ new ∈ call.pending, new ≤ max s.high data.currentAllocated)
    (hseen : ∀ new peak, call = .loop new peak → peak ≤ data.peakAllocated)
    (hattained : data.peakAllocated = max s.high data.currentAllocated ∨
      call.pending = some (max s.high data.currentAllocated) ∨
      ∃ c' ≠ c, (s.call c').pending = some (max s.high data.currentAllocated)) :
    (s.goto c data call).Inv where
  high_lt := max_lt h.high_lt hcurrent
  current_le := le_max_right _ _
  peak_le := hle
  pending_le c' new hnew := by
    by_cases hc : c' = c
    · subst hc
      rw [call_goto_self] at hnew
      exact hpending new hnew
    · rw [call_goto_of_ne hc] at hnew
      exact (h.pending_le c' new hnew).trans (le_max_left _ _)
  seen_le c' new peak hcall := by
    by_cases hc : c' = c
    · subst hc
      rw [call_goto_self] at hcall
      exact hseen new peak hcall
    · rw [call_goto_of_ne hc] at hcall
      exact (h.seen_le c' new peak hcall).trans hpeak
  attained := by
    rcases hattained with heq | heq | ⟨c', hc, heq⟩
    · exact .inl heq
    · refine .inr ⟨c, ?_⟩
      rw [call_goto_self]
      exact heq
    · refine .inr ⟨c', ?_⟩
      rw [call_goto_of_ne hc]
      exact heq

/-- **One step keeps the invariant.** -/
theorem Inv.step (h : s.Inv) (hok : s.Allowed (c, a)) (hstep : s.step (c, a) = some s') :
    s'.Inv := by
  have hlt := h.current_le.trans_lt h.high_lt
  -- a call in flight that is not this one is still in flight
  have hother (hnone : (s.call c).pending ≠ some s.high) :
      s.data.peakAllocated = s.high ∨ ∃ c' ≠ c, (s.call c').pending = some s.high := by
    rcases h.attained with heq | ⟨c', hc'⟩
    · exact .inl heq
    · exact .inr ⟨c', fun hc => hnone (hc ▸ hc'), hc'⟩
  obtain ⟨data, call, rfl, ⟨hidle, hcall, hpeak, hcur⟩ | ⟨hidle, rfl, hpeak, hcur⟩ |
    ⟨hcur, new, hnew, ⟨hpeak, rfl⟩ | ⟨rfl, hpeak, hle⟩ | ⟨rfl, hpeak, peak, hloop, hle⟩⟩⟩ :=
    step_cases hok hlt hstep
  · -- nothing pending before or after
    have hmax : max s.high data.currentAllocated = s.high := max_eq_left (hcur.trans h.current_le)
    refine h.goto (hcur.trans_lt hlt) hpeak.ge ?_ ?_ ?_ ?_
    · rw [hmax, hpeak]
      exact h.peak_le
    · rw [hcall]
      exact fun _ hn => nomatch hn
    · rintro new peak rfl
      exact nomatch hcall
    · rw [hmax, hpeak]
      exact (hother (by rw [hidle]; exact nofun)).imp_right .inr
  · -- the bytes in use are raised, and pending
    refine h.goto hcur hpeak.ge ?_ ?_ (fun _ _ hn => nomatch hn) ?_
    · rw [hpeak]
      exact h.peak_le.trans (le_max_left _ _)
    · rintro new hnew
      rw [← Option.some.inj hnew]
      exact le_max_right _ _
    · rcases le_total data.currentAllocated s.high with hle | hle
      · rw [max_eq_left hle, hpeak]
        exact (hother (by rw [hidle]; exact nofun)).imp_right .inr
      · rw [max_eq_right hle]
        exact .inr (.inl rfl)
  all_goals
    have hmax : max s.high data.currentAllocated = s.high := max_eq_left (hcur ▸ h.current_le)
    have hnew_le := h.pending_le c new hnew
  · -- the peak is loaded
    refine h.goto (hcur ▸ hlt) hpeak.ge ?_ ?_ ?_ ?_
    · rw [hmax, hpeak]
      exact h.peak_le
    · rintro n hn
      rw [hmax, ← Option.some.inj hn]
      exact hnew_le
    · rintro n p hn
      rw [hpeak, (Call.loop.inj hn).2]
    · rw [hmax, hpeak]
      by_cases hself : (s.call c).pending = some s.high
      · obtain rfl := Option.some.inj (hself.symm.trans hnew)
        exact .inr (.inl rfl)
      · exact (hother hself).imp_right .inr
  · -- the peak is raised
    refine h.goto (hcur ▸ hlt) (hpeak ▸ hle) ?_ (fun _ hn => nomatch hn)
      (fun _ _ hn => nomatch hn) ?_
    · rw [hmax, hpeak]
      exact hnew_le
    · rw [hmax, hpeak]
      by_cases hself : (s.call c).pending = some s.high
      · exact .inl (Option.some.inj (hnew.symm.trans hself))
      · rcases hother hself with heq | hex
        · exact .inl (le_antisymm hnew_le (heq ▸ hle))
        · exact .inr (.inr hex)
  · -- the peak is high enough
    refine h.goto (hcur ▸ hlt) hpeak.ge ?_ (fun _ hn => nomatch hn) (fun _ _ hn => nomatch hn) ?_
    · rw [hmax, hpeak]
      exact h.peak_le
    · rw [hmax, hpeak]
      by_cases hself : (s.call c).pending = some s.high
      · obtain rfl := Option.some.inj (hnew.symm.trans hself)
        exact .inl (le_antisymm h.peak_le (hle.trans (h.seen_le c _ peak hloop)))
      · exact (hother hself).imp_right .inr

/-- **The peak is exact, whatever interrupts its updates**: in every interleaving of `inc_alloc` and
`inc_free` by any contexts, with compare-and-exchange failing at will, the peak is at most the
largest value `current_allocated` has had, and it is that value once no call that brought it about
is in flight. -/
theorem peak_exact (hrun : Run step Allowed start is s) :
    s.data.peakAllocated ≤ s.high ∧
      ((∀ c, (s.call c).pending ≠ some s.high) → s.data.peakAllocated = s.high) := by
  have hinv : s.Inv :=
    hrun.invariant (P := Inv) (fun _ _ _ h hok hstep => h.step hok hstep) inv_start
  exact ⟨hinv.peak_le, fun hno => hinv.attained.resolve_right fun ⟨c, hc⟩ => hno c hc⟩

/-- Two contexts, of which the second allocates and frees within a call of the first. -/
def nested : List (Bool × Act) :=
  [(false, .incAlloc 64), (false, .next false), (true, .incAlloc 32), (true, .next false),
    (true, .next false), (true, .next false), (true, .incFree 32), (true, .next false),
    (false, .next false), (false, .next false)]

theorem peak_exact_nested : ∃ s, Run step Allowed start nested s ∧
    s.data.currentAllocated = 64 ∧ s.high = 96 ∧ s.data.peakAllocated = 96 := by
  have hgo : ((runFrom step Allowed start nested).any fun s =>
      decide (s.data.currentAllocated = 64) && decide (s.high = 96) &&
        decide (∀ c, (s.call c).pending ≠ some 96)) = true := by
    decide +kernel
  simp only [Option.any_eq_true, Bool.and_eq_true, decide_eq_true_eq] at hgo
  obtain ⟨s, hs, ⟨hcur, hhigh⟩, hno⟩ := hgo
  have hrun := Run.of_runFrom hs
  exact ⟨s, hrun, hcur, hhigh, ((peak_exact hrun).2 (hhigh ▸ hno)).trans hhigh⟩

/-! ## A call that is not interrupted -/

/-- The loop alone leaves the larger of the peak and the new value, however often it fails. -/
theorem data_of_loop_alone {new : ℕ} {fs : List Bool}
    (hcall : s.call c = .loop new s.data.peakAllocated)
    (hrun : Run step Allowed s (fs.map fun f => (c, .next f)) s') (hidle : s'.call c = .idle) :
    s'.data = { s.data with peakAllocated := max s.data.peakAllocated new } := by
  induction fs generalizing s with
  | nil =>
    obtain _ | _ := hrun
    exact nomatch hcall.symm.trans hidle
  | cons f fs ih =>
    obtain _ | ⟨-, hstep, hrun⟩ := hrun
    rw [step, hcall] at hstep
    dsimp only at hstep
    -- once the loop is left there is no further step
    have hdone {data : MonitorData}
        (hrun : Run step Allowed (s.goto c data .idle) (fs.map fun f => (c, .next f)) s') :
        s'.data = data := by
      rcases fs with _ | ⟨f, fs⟩
      · obtain _ | _ := hrun
        rfl
      · obtain _ | ⟨-, hstep, -⟩ := hrun
        rw [step, call_goto_self] at hstep
        exact nomatch hstep
    split_ifs at hstep with hgt hcas
    · obtain rfl := Option.some.inj hstep
      rw [hdone hrun, max_eq_right hgt.le]
    · obtain rfl := Option.some.inj hstep
      have hrest := ih call_goto_self hrun
      exact hrest
    · obtain rfl := Option.some.inj hstep
      rw [hdone hrun, max_eq_left (not_lt.mp hgt)]

/-- **A call of `inc_alloc` that is not interrupted** is `incAlloc`. -/
theorem incAlloc_of_alone {size : ℕ} {fs : List Bool} (hcall : s.call c = .idle)
    (hrun : Run step Allowed s ((c, .incAlloc size) :: fs.map fun f => (c, .next f)) s')
    (hidle : s'.call c = .idle) : s.data.incAlloc size = some s'.data := by
  obtain _ | ⟨-, hstep, hrun⟩ := hrun
  rw [step, if_pos hcall] at hstep
  obtain rfl := Option.some.inj hstep
  rcases fs with _ | ⟨f, _ | ⟨f', fs⟩⟩
  · obtain _ | _ := hrun
    rw [call_goto_self] at hidle
    exact nomatch hidle
  · obtain _ | ⟨-, hstep, hrun⟩ := hrun
    obtain _ | _ := hrun
    rw [step, call_goto_self] at hstep
    obtain ⟨new, -, hstep⟩ := Option.bind_eq_some_iff.mp hstep
    obtain rfl := Option.some.inj hstep
    rw [call_goto_self] at hidle
    exact nomatch hidle
  · obtain _ | ⟨-, hstep, hrun⟩ := hrun
    rw [step, call_goto_self] at hstep
    obtain ⟨new, hnew, hstep⟩ := Option.bind_eq_some_iff.mp hstep
    obtain rfl := Option.some.inj hstep
    obtain _ | ⟨-, hstep, hrun⟩ := hrun
    rw [step, call_goto_self] at hstep
    obtain rfl := Option.some.inj hstep
    rw [data_of_loop_alone call_goto_self hrun hidle, MonitorData.incAlloc]
    exact Option.bind_eq_some_iff.mpr ⟨new, hnew, rfl⟩

end Contexts

end YontiOs.Monitor
