import YontiOs.Apic.Redirection
import YontiOs.Interrupts.Chips

/-!
# Interrupts/LocalApic — the local APIC, and the board it is on

As with the legacy controllers, the APIC is known by what is documented: `LocalApic` is one with its
registers, the messages it gets and its signal to the processor, over a state that stays open.
`Board` has all controllers together, and the pins of the I/O APIC behind which the devices are.
`XApic` is a local APIC that does what is documented (`xApic_documented`).
-/

namespace YontiOs.Apic

def lapicEoi : ℕ := 0x0B0

/-- An access that leaves the interrupts of the local APIC at a base alone: a read, a write to the
register that enables it, an access of another chip. -/
def Quiet (base : ℕ) (a : Access) : Prop :=
  ∀ offset v, a = .write ⟨base, offset⟩ v → offset = lapicSvr

end YontiOs.Apic

namespace YontiOs.Interrupts

open Apic (tableOf redirMasked lapicSvr lapicEoi svrEnable Quiet)

/-- There are 256 vectors. -/
scoped instance neZero_vectors : NeZero 256 := ⟨Nat.succ_ne_zero 255⟩

/-- A local APIC: the accesses of its registers, the messages of the I/O APIC, the signal to the
processor and its answer; the vectors that ask for an interrupt and those being handled. -/
structure LocalApic (τ : Type) where
  access : Access → τ → τ
  accept : Fin 256 → τ → τ
  int : τ → Bool
  inta : τ → Fin 256 × τ
  irr : τ → Finset (Fin 256)
  isr : τ → Finset (Fin 256)

/-- **What its documentation says.** -/
structure LocalApic.Documented {τ : Type} (c : LocalApic τ) (base : ℕ) : Prop where
  quiet : ∀ a l, Quiet base a → c.irr (c.access a l) = c.irr l ∧ c.isr (c.access a l) = c.isr l
  /-- The end of an interrupt ends the one of highest priority. -/
  end_of_interrupt : ∀ l, c.irr (c.access (.write ⟨base, lapicEoi⟩ 0) l) = c.irr l ∧
    ∀ v ∈ c.isr l, (∀ w ∈ c.isr l, w ≤ v) →
      c.isr (c.access (.write ⟨base, lapicEoi⟩ 0) l) = (c.isr l).erase v
  /-- A message asks for its own vector at most. -/
  accept : ∀ v l, c.irr (c.accept v l) ⊆ insert v (c.irr l) ∧ c.isr (c.accept v l) = c.isr l
  /-- While the processor is signalled, its answer takes up a vector that asks. -/
  inta : ∀ l, c.int l = true → (c.inta l).1 ∈ c.irr l ∧ c.irr (c.inta l).2 ⊆ c.irr l ∧
    c.isr (c.inta l).2 = insert (c.inta l).1 (c.isr l)

/-- The vector of an entry of the redirection table. -/
def vectorOf (entry : UInt32) : Fin 256 := Fin.ofNat 256 entry.toNat

/-- The controllers of a machine: where the local APIC and the I/O APIC are, and the message that
the I/O APIC sends, by its registers, when a device asks for an interrupt. -/
structure Board (σ τ : Type) where
  lapicBase : ℕ
  ioapicBase : ℕ
  pics : PicPair σ
  lapic : LocalApic τ
  forward : (ℕ → UInt32) → Fin 16 → Option (Fin 256)

structure Board.Documented {σ τ : Type} (b : Board σ τ) : Prop where
  apart : b.lapicBase ≠ b.ioapicBase
  pics : b.pics.Documented
  lapic : b.lapic.Documented b.lapicBase
  /-- What the I/O APIC sends comes from an entry that is not masked. -/
  forward : ∀ regs irq v, b.forward regs irq = some v →
    ∃ pin, (tableOf regs pin).1 &&& redirMasked = 0 ∧ v = vectorOf (tableOf regs pin).1

/-! ## A local APIC -/

structure XApic where
  enabled : Bool
  irr : Finset (Fin 256)
  isr : Finset (Fin 256)
deriving DecidableEq

namespace XApic

/-- The vector of highest priority. -/
def highest (vectors : Finset (Fin 256)) : Option (Fin 256) :=
  (Fin.find? fun n => decide (n.rev ∈ vectors)).map Fin.rev

/-- The vector that is signalled: its class is above those of all being handled. -/
def signalled (l : XApic) : Option (Fin 256) :=
  (highest l.irr).filter fun v => decide (∀ m ∈ l.isr, m.val / 16 < v.val / 16)

/-- An access of a register. -/
def access (base : ℕ) (a : Access) (l : XApic) : XApic :=
  match a with
  | .read _ _ => l
  | .write reg v =>
    if reg = ⟨base, lapicSvr⟩ then { l with enabled := decide (v &&& svrEnable ≠ 0) }
    else if reg = ⟨base, lapicEoi⟩ then
      match highest l.isr with
      | some v => { l with isr := l.isr.erase v }
      | none => l
    else l

def accept (v : Fin 256) (l : XApic) : XApic :=
  if l.enabled = true then { l with irr := insert v l.irr } else l

/-- The processor is signalled. -/
def int (l : XApic) : Bool := l.signalled.isSome

/-- The processor acknowledges an interrupt; the vector of a spurious one is 255. -/
def acknowledge (l : XApic) : Fin 256 × XApic :=
  match l.signalled with
  | some v => (v, { l with irr := l.irr.erase v, isr := insert v l.isr })
  | none => (Fin.last 255, l)

end XApic

def xApic (base : ℕ) : LocalApic XApic where
  access := XApic.access base
  accept := XApic.accept
  int := XApic.int
  inta := XApic.acknowledge
  irr := XApic.irr
  isr := XApic.isr

namespace XApic

variable {l : XApic} {v : Fin 256} {vectors : Finset (Fin 256)}

theorem highest_eq_some : highest vectors = some v ↔ v ∈ vectors ∧ ∀ w ∈ vectors, w ≤ v := by
  rw [highest, Option.map_eq_some_iff]
  constructor
  · rintro ⟨n, hn, rfl⟩
    obtain ⟨hmem, hbefore⟩ := Fin.find?_eq_some_iff.mp hn
    refine ⟨of_decide_eq_true hmem, fun w hw => ?_⟩
    by_contra hlt
    have hrev : w.rev < n := by
      rw [← Fin.rev_lt_rev, Fin.rev_rev]
      exact not_le.mp hlt
    have hno := of_decide_eq_false (hbefore w.rev hrev)
    rw [Fin.rev_rev] at hno
    exact hno hw
  · rintro ⟨hmem, hmax⟩
    refine ⟨v.rev, Fin.find?_eq_some_iff.mpr ⟨?_, fun n hn => ?_⟩, Fin.rev_rev v⟩
    · rw [Fin.rev_rev]
      exact decide_eq_true hmem
    · refine decide_eq_false fun hw => absurd (hmax _ hw) (not_le.mpr ?_)
      rw [← Fin.rev_lt_rev, Fin.rev_rev]
      exact hn

theorem access_quiet {base : ℕ} {a : Access} (h : Quiet base a) (l : XApic) :
    (access base a l).irr = l.irr ∧ (access base a l).isr = l.isr := by
  cases a with
  | read reg answer => exact ⟨rfl, rfl⟩
  | write reg value =>
    rw [access]
    split_ifs with hsvr hend
    · exact ⟨rfl, rfl⟩
    · exact absurd (h lapicEoi value (congrArg (Access.write · value) hend)) (by decide)
    · exact ⟨rfl, rfl⟩

theorem access_endOfInterrupt (base : ℕ) (l : XApic) :
    access base (.write ⟨base, lapicEoi⟩ 0) l = match highest l.isr with
      | some v => { l with isr := l.isr.erase v }
      | none => l := by
  have hne : (⟨base, lapicEoi⟩ : Reg) ≠ ⟨base, lapicSvr⟩ := fun heq =>
    absurd (congrArg Reg.offset heq) (show lapicEoi ≠ lapicSvr by decide)
  rw [access, if_neg hne, if_pos rfl]

theorem accept_spec (v : Fin 256) (l : XApic) :
    (accept v l).irr ⊆ insert v l.irr ∧ (accept v l).isr = l.isr := by
  rw [accept]
  split_ifs
  · exact ⟨fun _ h => h, rfl⟩
  · exact ⟨Finset.subset_insert _ _, rfl⟩

/-- A signalled vector is taken up. -/
theorem acknowledge_eq (h : l.signalled = some v) :
    v ∈ l.irr ∧ l.acknowledge = (v, { l with irr := l.irr.erase v, isr := insert v l.isr }) := by
  obtain ⟨hhigh, -⟩ := Option.filter_eq_some_iff.mp h
  refine ⟨(highest_eq_some.mp hhigh).1, ?_⟩
  unfold acknowledge
  generalize l.signalled = x at h
  subst h
  rfl

end XApic

open XApic

theorem xApic_documented (base : ℕ) : (xApic base).Documented base where
  quiet a l h := access_quiet h l
  end_of_interrupt l := by
    have heoi : (xApic base).access (.write ⟨base, lapicEoi⟩ 0) l = _ :=
      access_endOfInterrupt base l
    rw [heoi]
    split
    · rename_i v hv
      refine ⟨rfl, fun w hw hmax => ?_⟩
      obtain ⟨hmem, hmax'⟩ := highest_eq_some.mp hv
      obtain rfl := (hmax v hmem).antisymm (hmax' w hw)
      rfl
    · rename_i hnone
      refine ⟨rfl, fun w hw hmax => ?_⟩
      cases hnone.symm.trans (highest_eq_some.mpr ⟨hw, hmax⟩)
  accept v l := accept_spec v l
  inta l hint := by
    dsimp only [xApic, XApic.int] at hint
    obtain ⟨v, hv⟩ := Option.isSome_iff_exists.mp hint
    obtain ⟨hmem, hack⟩ := acknowledge_eq hv
    dsimp only [xApic]
    rw [hack]
    exact ⟨hmem, Finset.erase_subset _ _, rfl⟩

end YontiOs.Interrupts
