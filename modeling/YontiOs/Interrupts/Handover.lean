import YontiOs.Interrupts.LocalApic
import YontiOs.Interrupts.Pic

/-!
# Interrupts/Handover — from the legacy controllers to the APIC

The kernel boots with the two legacy controllers configured and interrupts disabled.  `init_apic`
then programs the local APIC and the I/O APIC, masks the legacy controllers and enables interrupts;
where no APIC is found it enables interrupts as things are.  A handler ends its interrupt at the
local APIC if `is_active`, else at the legacy controllers.

A handler that ended its interrupt at the wrong controller would block its line for good.  That does
not happen, whenever the devices ask for interrupts (`handover_safe`): no interrupt is taken before
the switch is over, so the controller a handler asks for is the one its interrupt came from.  The
controllers do what is documented (`Board.Documented`) and are found with nothing in service, and
the processor answers a controller only while it signals, so neither of them gives it a spurious
vector.
-/

namespace YontiOs.Apic

open MmioM

/-- `end_of_interrupt()`, with the pointer that `init` has stored. -/
def endOfInterrupt (lapicVirt : ℕ) : MmioM Unit := writeVolatile ⟨lapicVirt, lapicEoi⟩ 0

/-! ## What `init` accesses -/

variable {dev : Device} {log : List Access} {info : ApicInfo} {physOffset : ℕ} {ok : Bool}

theorem quiet_read (base : ℕ) (reg : Reg) (v : UInt32) : Quiet base (.read reg v) :=
  fun _ _ heq => by cases heq

theorem quiet_lapicRead (base : ℕ) (lapic : Lapic) (offset : ℕ) :
    Does (Quiet base) (lapic.read offset) :=
  (Does.assert _).bind fun _ => .readVolatile (quiet_read base _)

theorem quiet_enable (base : ℕ) (lapic : Lapic) (v : UInt8) :
    Does (Quiet base) (lapic.enable v) := by
  have hsvr : ∀ value, Quiet base (.write ⟨lapic.base, lapicSvr⟩ value) := fun _ _ _ heq =>
    (congrArg Reg.offset (Access.write.inj heq).1).symm
  exact ((Does.assert _).bind fun _ => .writeVolatile (hsvr _)).bind fun _ =>
    (quiet_lapicRead base _ _).bind fun _ => .assert _

/-- The I/O APIC is another chip. -/
theorem quiet_of_ne {base other : ℕ} (h : other ≠ base) (offset : ℕ) (v : UInt32) :
    Quiet base (.write ⟨other, offset⟩ v) :=
  fun _ _ heq => absurd (congrArg Reg.base (Access.write.inj heq).1) h

theorem quiet_readReg {base other : ℕ} (h : other ≠ base) (index : UInt8) :
    Does (Quiet base) (IoApic.readReg other index) :=
  (Does.writeVolatile (quiet_of_ne h _ _)).bind fun _ => .readVolatile (quiet_read base _)

theorem quiet_writeReg {base other : ℕ} (h : other ≠ base) (index : UInt8) (v : UInt32) :
    Does (Quiet base) (IoApic.writeReg other index v) :=
  (Does.writeVolatile (quiet_of_ne h _ _)).bind fun _ => .writeVolatile (quiet_of_ne h _ _)

theorem quiet_route {base : ℕ} (info : ApicInfo) {ioapic : IoApic} (h : ioapic.base ≠ base)
    (irq : Fin 16) (vector : UInt8) : Does (Quiet base) (route info ioapic irq vector) :=
  (Does.assert _).bind fun _ => (Does.assert _).bind fun _ => (Does.assert _).bind fun _ =>
    (Does.checked _).bind fun _ => (Does.checked _).bind fun _ =>
      (quiet_writeReg h _ _).bind fun _ => (Does.checked _).bind fun _ => quiet_writeReg h _ _

/-- **`init` leaves the interrupts of the local APIC alone.** -/
theorem quiet_init {base : ℕ} (h : info.ioapicAt physOffset ≠ base) :
    Does (Quiet base) (init info physOffset) := by
  refine (Does.assert _).bind fun _ => (Does.assert _).bind fun _ => (Does.assert _).bind fun _ =>
    (Does.checked _).bind fun _ => ((Does.assert _).bind fun _ => .pure _).bind fun lapic => ?_
  refine ((quiet_lapicRead base _ _).bind fun _ => (Does.assert _).bind fun _ => .pure _).bind
    fun _ => ((quiet_lapicRead base _ _).bind fun _ => (Does.assert _).bind fun _ => .pure _).bind
    fun _ => (quiet_enable base lapic _).bind fun _ => Does.checked_bind fun ioapicVirt hvirt => ?_
  have hne : ioapicVirt ≠ base := by
    rw [(Word.add_eq_some hvirt).1]
    exact h
  refine Does.bind_of_returns ((Does.assert _).bind fun _ => (quiet_readReg hne _).bind fun _ =>
    (Does.assert _).bind fun _ => .pure _) fun _ _ ioapic _ hnew => (Does.assert _).bind fun _ => ?_
  have hbase : ioapic.base ≠ base := by
    rw [(IoApic.new_spec hnew).1]
    exact hne
  exact (quiet_route info hbase _ _).bind fun _ => (quiet_route info hbase _ _).bind fun _ =>
    .pure _

/-- **`init` returns true or panics**, and it writes two entries of the redirection table. -/
theorem init_spec (h : init info physOffset dev [] = some (ok, log)) (regs : ℕ → UInt32) :
    ok = true ∧ ∃ a c, tableOf (registers (physOffset + info.ioapicAddrs[0].toNat) regs log) =
      Function.update (Function.update (tableOf regs) a (32, 0)) c (33, 0) := by
  obtain ⟨-, h⟩ := assert_bind.mp h
  obtain ⟨-, h⟩ := assert_bind.mp h
  obtain ⟨-, h⟩ := assert_bind.mp h
  obtain ⟨lapicVirt, -, h⟩ := checked_bind.mp h
  obtain ⟨lapic, log₁, hlapic, h⟩ := bind_eq_some.mp h
  obtain ⟨_, log₂, hid, h⟩ := bind_eq_some.mp h
  obtain ⟨_, log₃, hver, h⟩ := bind_eq_some.mp h
  obtain ⟨_, log₄, henable, h⟩ := bind_eq_some.mp h
  obtain ⟨ioapicVirt, hvirt, h⟩ := checked_bind.mp h
  obtain ⟨ioapic, log₅, hnew, h⟩ := bind_eq_some.mp h
  obtain ⟨-, h⟩ := assert_bind.mp h
  obtain ⟨_, log₆, htimer, h⟩ := bind_eq_some.mp h
  obtain ⟨_, log₇, hkeyboard, h⟩ := bind_eq_some.mp h
  obtain ⟨rfl, rfl⟩ := Prod.mk.inj (pure_eq_some.mp h)
  obtain ⟨rfl, -⟩ := Word.add_eq_some hvirt
  obtain ⟨-, hlapic⟩ := assert_bind.mp hlapic
  obtain ⟨-, rfl⟩ := Prod.mk.inj (pure_eq_some.mp hlapic)
  obtain ⟨hbase, -, version, -, hlog₅⟩ := IoApic.new_spec hnew
  rw [Lapic.ofLog_enable henable, Lapic.ofLog_version hver, Lapic.ofLog_id hid] at hlog₅
  obtain ⟨-, -, hlog₆⟩ := route_spec htimer
  obtain ⟨-, -, hlog₇⟩ := route_spec hkeyboard
  rw [hbase] at hlog₆ hlog₇
  refine ⟨rfl, ((irqGsi info 0).toNat - ioapic.gsiBase.toNat) % 256,
    ((irqGsi info 1).toNat - ioapic.gsiBase.toNat) % 256, ?_⟩
  rw [registers, hlog₇, hlog₆, hlog₅, ← tableOf_update, ← tableOf_update]
  rfl

end YontiOs.Apic

namespace YontiOs.Interrupts

open Apic (registers tableOf redirMasked lapicEoi ApicInfo Quiet)

/-! ## The machine -/

inductive Controller
  | pic
  | lapic
deriving DecidableEq, Repr

/-- How far `init_apic` has come. -/
inductive Stage
  | boot
  | switched
  | masked
  | running
deriving DecidableEq, Repr

/-- The machine: the legacy controllers, the local APIC and the registers of the I/O APIC; `apic` is
what `init` has stored, and the running handlers are listed with the controllers their interrupts
came from. -/
structure Machine (σ τ : Type) where
  pics : σ
  lapic : τ
  regs : ℕ → UInt32
  interruptFlag : Bool
  stage : Stage
  apic : Option ℕ
  handlers : List (Controller × UInt8)

/-- `PICS`. -/
def pics : ChainedPics := .new 32 40

/-- The vectors the interrupt descriptor table has a handler for, apart from exceptions. -/
def HasHandler (v : UInt8) : Prop := v = 32 ∨ v = 33

instance (v : UInt8) : Decidable (HasHandler v) := inferInstanceAs (Decidable (_ ∨ _))

/-- What happens; the processor takes an interrupt of one of the controllers. -/
inductive Event
  | raise (irq : Fin 16)
  | lower (irq : Fin 16)
  | take (source : Controller)
  | finish
  | fallback
  | switch (info : ApicInfo) (physOffset : ℕ) (dev : Device)
  | maskAll
  | start
  | disable
  | enable

variable {σ τ : Type}

namespace Machine

/-- The accesses of a driver. -/
def apply (b : Board σ τ) (m : Machine σ τ) (log : List Access) : Machine σ τ :=
  { m with
    lapic := log.foldl (fun l a => b.lapic.access a l) m.lapic
    regs := registers b.ioapicBase m.regs log }

/-- A device asks for an interrupt, and is heard by the legacy controllers and by the I/O APIC. -/
def raise (b : Board σ τ) (m : Machine σ τ) (irq : Fin 16) : Machine σ τ :=
  { m with
    pics := b.pics.raise irq m.pics
    lapic :=
      match b.forward m.regs irq with
      | some v => b.lapic.accept v m.lapic
      | none => m.lapic }

/-- The processor enters a handler, with interrupts disabled; a vector without one is a double
fault. -/
def enter (m : Machine σ τ) (source : Controller) (v : UInt8) : Option (Machine σ τ) :=
  if HasHandler v then
    some { m with interruptFlag := false, handlers := (source, v) :: m.handlers }
  else none

/-- One step; `none` is a panic. -/
def step (b : Board σ τ) (m : Machine σ τ) : Event → Option (Machine σ τ)
  | .raise irq => some (m.raise b irq)
  | .lower irq => some { m with pics := b.pics.lower irq m.pics }
  | .take .pic =>
    enter { m with pics := (b.pics.inta m.pics).2 } .pic (b.pics.inta m.pics).1
  | .take .lapic =>
    enter { m with lapic := (b.lapic.inta m.lapic).2 } .lapic
      (UInt8.ofNat (b.lapic.inta m.lapic).1)
  -- the end of a handler: the interrupt is ended where `is_active` says, and the processor returns
  | .finish =>
    match m.handlers, m.apic with
    | [], _ => none
    | (_, _) :: handlers, some lapicVirt => do
      let ((), log) ← Apic.endOfInterrupt lapicVirt (fun _ _ => 0) []
      some { m.apply b log with interruptFlag := true, handlers := handlers }
    | (_, v) :: handlers, none => do
      let ((), p) ← Interrupts.pics.notifyEndOfInterrupt v b.pics.bus m.pics
      some { m with pics := p, interruptFlag := true, handlers := handlers }
  -- no RSDP, or no APIC detected
  | .fallback => some { m with interruptFlag := true, stage := .running }
  | .switch info physOffset dev => do
    let (ok, log) ← Apic.init info physOffset dev []
    let m := { m.apply b log with interruptFlag := false }
    if ok then
      some { m with stage := .switched, apic := some (physOffset + info.lapicPhysBase.toNat) }
    else some { m with interruptFlag := true, stage := .running }
  | .maskAll => do
    let ((), p) ← Interrupts.pics.maskAll b.pics.bus m.pics
    some { m with pics := p, stage := .masked }
  | .start => some { m with interruptFlag := true, stage := .running }
  | .disable => some { m with interruptFlag := false }
  | .enable => some { m with interruptFlag := true }

/-- A controller signals to the processor. -/
def Signals (b : Board σ τ) (m : Machine σ τ) : Controller → Prop
  | .pic => b.pics.int m.pics = true
  | .lapic => b.lapic.int m.lapic = true

instance (b : Board σ τ) (m : Machine σ τ) : ∀ source, Decidable (m.Signals b source)
  | .pic => inferInstanceAs (Decidable (_ = true))
  | .lapic => inferInstanceAs (Decidable (_ = true))

/-- Interrupts are taken where they are enabled and from a controller that signals, the steps of
`init_apic` come in their order, the tables of the firmware tell where the chips are, and what runs
outside handlers may disable interrupts and enable them again. -/
def Allowed (b : Board σ τ) (m : Machine σ τ) : Event → Prop
  | .raise irq | .lower irq => irq ≠ 2
  | .take source => m.interruptFlag = true ∧ m.Signals b source
  | .finish => m.handlers ≠ []
  | .fallback => m.stage = .boot
  | .switch info physOffset _ => m.stage = .boot ∧
      physOffset + info.lapicPhysBase.toNat = b.lapicBase ∧
      info.ioapicAt physOffset = b.ioapicBase
  | .maskAll => m.stage = .switched
  | .start => m.stage = .masked
  | .disable | .enable => m.stage = .running ∧ m.handlers = []

instance (b : Board σ τ) (m : Machine σ τ) : ∀ e, Decidable (m.Allowed b e)
  | .raise irq | .lower irq => inferInstanceAs (Decidable (irq ≠ 2))
  | .take _ => inferInstanceAs (Decidable (_ ∧ _))
  | .finish => inferInstanceAs (Decidable (m.handlers ≠ []))
  | .fallback => inferInstanceAs (Decidable (m.stage = .boot))
  | .switch _ _ _ => inferInstanceAs (Decidable (_ ∧ _))
  | .maskAll => inferInstanceAs (Decidable (m.stage = .switched))
  | .start => inferInstanceAs (Decidable (m.stage = .masked))
  | .disable | .enable => inferInstanceAs (Decidable (_ ∧ _))

/-- The machine after `yonti_os::init`, with interrupts disabled. -/
def boot (pics : σ) (lapic : τ) (regs : ℕ → UInt32) : Machine σ τ :=
  ⟨pics, lapic, regs, false, .boot, none, []⟩

end Machine

/-! ## The chips, case by case -/

variable {b : Board σ τ} {m m' : Machine σ τ} {log : List Access} {v : Fin 256}

/-- Quiet accesses leave vectors where they are. -/
theorem LocalApic.Documented.foldl_access {c : LocalApic τ} {base : ℕ} (hc : c.Documented base)
    (h : ∀ a ∈ log, Quiet base a) (l : τ) :
    c.irr (log.foldl (fun l a => c.access a l) l) = c.irr l ∧
      c.isr (log.foldl (fun l a => c.access a l) l) = c.isr l := by
  induction log generalizing l with
  | nil => exact ⟨rfl, rfl⟩
  | cons a log ih =>
    obtain ⟨ha, hlog⟩ := List.forall_mem_cons.mp h
    obtain ⟨hirr, hisr⟩ := hc.quiet a l ha
    rw [List.foldl_cons, ← hirr, ← hisr]
    exact ih hlog _

/-- The I/O APIC does not see the end of an interrupt. -/
theorem Machine.apply_endOfInterrupt (b : Board σ τ) (m : Machine σ τ) (base : ℕ) :
    m.apply b [.write ⟨base, lapicEoi⟩ 0] =
      { m with lapic := b.lapic.access (.write ⟨base, lapicEoi⟩ 0) m.lapic } := by
  have hview : Apic.IoApicView.ofLog b.ioapicBase ([] ++ [.write ⟨base, lapicEoi⟩ 0]) =
      Apic.IoApicView.ofLog b.ioapicBase [] := (Apic.IoApicView.ofLog_of_offset (by decide)).2
  have hregs : registers b.ioapicBase m.regs [.write ⟨base, lapicEoi⟩ 0] = m.regs := by
    rw [List.nil_append] at hview
    rw [registers, hview]
    rfl
  rw [apply, hregs]
  rfl

/-- Masked controllers do not signal. -/
theorem PicPair.Documented.int_masked {c : PicPair σ} {s : σ} {o₁ o₂ : UInt8} (hc : c.Documented)
    (hready : c.Ready o₁ o₂ s) (h : c.imr .master s = 0xFF) : c.int s = false := by
  have hall : ∀ n : Fin 8, (0xFF : UInt8).toBitVec.getLsbD n = true := by decide
  rw [Bool.eq_false_iff]
  intro hint
  obtain ⟨irq, hasks⟩ := (hc.int_iff o₁ o₂ s hready).mp hint
  have hunmasked := hasks.unmasked.master
  rw [PicPair.masked, h, hall] at hunmasked
  cases hunmasked

/-! ## The invariant -/

/-- The vectors of the handlers whose interrupts came from the legacy controllers. -/
def picVectors (handlers : List (Controller × UInt8)) : List UInt8 :=
  handlers.filterMap fun h => if h.1 = .pic then some h.2 else none

/-- Those whose interrupts came from the local APIC. -/
def lapicVectors (handlers : List (Controller × UInt8)) : Finset (Fin 256) :=
  (handlers.filterMap fun h =>
    if h.1 = .lapic then some (Fin.ofNat 256 h.2.toNat) else none).toFinset

variable {handlers : List (Controller × UInt8)} {w : UInt8}

theorem lapicVectors_lapic : lapicVectors ((.lapic, w) :: handlers) =
    insert (Fin.ofNat 256 w.toNat) (lapicVectors handlers) := List.toFinset_cons

theorem lapicVectors_pic : lapicVectors ((.pic, w) :: handlers) = lapicVectors handlers := rfl

theorem picVectors_pic : picVectors ((.pic, w) :: handlers) = w :: picVectors handlers := rfl

theorem picVectors_lapic : picVectors ((.lapic, w) :: handlers) = picVectors handlers := rfl

namespace Machine

/-- The vectors of timer and keyboard, once the APIC is active. -/
def Routed (m : Machine σ τ) (v : Fin 256) : Prop := m.apic.isSome = true ∧ (v = 32 ∨ v = 33)

/-- **The controllers have in service what the handlers are handling**, and the handlers know which
controller it is. -/
structure Inv (b : Board σ τ) (m : Machine σ τ) : Prop where
  pics : ∃ irqs, InService.Inv b.pics 32 40 ⟨m.pics, picVectors m.handlers⟩ irqs
  isr : b.lapic.isr m.lapic = lapicVectors m.handlers
  single : m.handlers.length ≤ 1
  busy : m.handlers ≠ [] → m.interruptFlag = false ∧ m.stage = .running
  quiet : m.stage ≠ .running → m.interruptFlag = false
  source : ∀ h ∈ m.handlers, h.1 = .lapic ↔ m.apic.isSome = true
  base : ∀ p, m.apic = some p → p = b.lapicBase
  inactive : m.stage = .boot → m.apic = none
  entries : ∀ pin, (tableOf m.regs pin).1 &&& redirMasked = 0 →
    m.Routed (vectorOf (tableOf m.regs pin).1)
  irr : ∀ v ∈ b.lapic.irr m.lapic, m.Routed v
  masks : m.apic.isSome = true → m.stage ≠ .switched → b.pics.imr .master m.pics = 0xFF

/-- The lines of the devices have no part in it. -/
theorem Inv.keeps (h : m.Inv b) {p : σ} (hkeep : b.pics.Keeps m.pics p) :
    Inv b { m with pics := p } :=
  { h with
    pics := by
      obtain ⟨irqs, hpics⟩ := h.pics
      exact ⟨irqs, hpics.keeps hkeep⟩
    masks := fun hactive hstage => (hkeep.imr .master).trans (h.masks hactive hstage) }

theorem Inv.raise (h : m.Inv b) (hb : b.Documented) {irq : Fin 16} (hirq : irq ≠ 2) :
    Inv b (m.raise b irq) := by
  have h' := h.keeps (hb.pics.raise irq m.pics hirq).1
  rw [Machine.raise]
  split
  · rename_i v hv
    obtain ⟨pin, hentry, rfl⟩ := hb.forward _ _ _ hv
    obtain ⟨hirr, hisr⟩ := hb.lapic.accept (vectorOf (tableOf m.regs pin).1) m.lapic
    exact
      { h' with
        isr := hisr.trans h.isr
        irr := fun w hw => by
          rcases Finset.mem_insert.mp (hirr hw) with rfl | hw
          · exact h.entries pin hentry
          · exact h.irr w hw }
  · exact h'

/-- Where interrupts may be taken, none is being handled. -/
theorem Inv.idle (h : m.Inv b) (hflag : m.interruptFlag = true) :
    m.handlers = [] ∧ m.stage = .running := by
  constructor
  · by_contra hne
    rw [(h.busy hne).1] at hflag
    exact Bool.noConfusion hflag
  · by_contra hne
    rw [h.quiet hne] at hflag
    exact Bool.noConfusion hflag

/-- No handler runs before the boot is over. -/
theorem Inv.handlers_eq_nil (h : m.Inv b) (hstage : m.stage ≠ .running) : m.handlers = [] := by
  by_contra hne
  exact hstage (h.busy hne).2

/-- A handler is entered, with its interrupt in service where it came from. -/
theorem Inv.entered (h : m.Inv b) (hflag : m.interruptFlag = true) {p : σ} {l : τ}
    {source : Controller} {w : UInt8}
    (hpics : ∃ irqs, InService.Inv b.pics 32 40 ⟨p, picVectors ((source, w) :: m.handlers)⟩ irqs)
    (hisr : b.lapic.isr l = lapicVectors ((source, w) :: m.handlers))
    (hirr : b.lapic.irr l ⊆ b.lapic.irr m.lapic)
    (hsource : source = .lapic ↔ m.apic.isSome = true)
    (hmasks : m.apic.isSome = true → p = m.pics) :
    Inv b { m with
      pics := p, lapic := l, interruptFlag := false, handlers := (source, w) :: m.handlers } where
  pics := hpics
  isr := hisr
  single := by
    rw [(h.idle hflag).1]
    exact le_rfl
  busy _ := ⟨rfl, (h.idle hflag).2⟩
  quiet _ := rfl
  source := by
    rw [(h.idle hflag).1]
    exact List.forall_mem_singleton.mpr hsource
  base := h.base
  inactive := h.inactive
  entries := h.entries
  irr v hv := h.irr v (hirr hv)
  masks hactive hstage := by
    rw [hmasks hactive]
    exact h.masks hactive hstage

/-- **The local APIC gives the processor a vector** that has a handler. -/
theorem Inv.takeLapic (h : m.Inv b) (hb : b.Documented) (hflag : m.interruptFlag = true)
    (hint : b.lapic.int m.lapic = true) :
    ∃ m', m.step b (.take .lapic) = some m' ∧ m'.Inv b := by
  obtain ⟨hmem, hirr, hisr⟩ := hb.lapic.inta m.lapic hint
  obtain ⟨hactive, hvec⟩ := h.irr _ hmem
  have hhas : HasHandler (UInt8.ofNat (b.lapic.inta m.lapic).1) := by
    rcases hvec with hv | hv <;> rw [hv]
    · exact .inl rfl
    · exact .inr rfl
  have hvalue : Fin.ofNat 256 (UInt8.ofNat (b.lapic.inta m.lapic).1).toNat =
      (b.lapic.inta m.lapic).1 := by
    ext
    rw [Fin.val_ofNat, UInt8.toNat_ofNat']
    omega
  refine ⟨_, if_pos hhas, h.entered hflag ?_ ?_ hirr (iff_of_true rfl hactive) fun _ => rfl⟩
  · rw [picVectors_lapic]
    exact h.pics
  · rw [lapicVectors_lapic, ← h.isr, hvalue, hisr]

/-- The legacy controllers do not signal once the APIC is in charge. -/
theorem Inv.int_eq_false (h : m.Inv b) (hb : b.Documented) (hrunning : m.stage = .running)
    (hactive : m.apic.isSome = true) : b.pics.int m.pics = false := by
  obtain ⟨irqs, hpics⟩ := h.pics
  exact hb.pics.int_masked hpics.ready (h.masks hactive (by rw [hrunning]; decide))

/-- **The legacy controllers give the processor a vector** only while the APIC is not active. -/
theorem Inv.takePic (h : m.Inv b) (hb : b.Documented) (hflag : m.interruptFlag = true)
    (hint : b.pics.int m.pics = true) (hstep : m.step b (.take .pic) = some m') : m'.Inv b := by
  have hinactive : m.apic.isSome = false := by
    rw [Bool.eq_false_iff]
    intro hactive
    exact Bool.noConfusion ((h.int_eq_false hb (h.idle hflag).2 hactive).symm.trans hint)
  have hnot : ¬ m.apic.isSome = true := Bool.eq_false_iff.mp hinactive
  rw [Machine.step, enter] at hstep
  split_ifs at hstep
  obtain rfl := Option.some.inj hstep
  obtain ⟨irqs, hpics⟩ := h.pics
  refine h.entered hflag ?_ ?_ subset_rfl (iff_of_false (fun heq => by cases heq) hnot)
    fun hactive => absurd hactive hnot
  · rw [picVectors_pic]
    exact hpics.deliver hb.pics hint
  · rw [lapicVectors_pic]
    exact h.isr

/-- The handler that runs, if one does. -/
theorem Inv.handler (h : m.Inv b) (hbusy : m.handlers ≠ []) :
    ∃ source v, m.handlers = [(source, v)] ∧ m.stage = .running ∧
      (source = .lapic ↔ m.apic.isSome = true) := by
  obtain ⟨⟨source, v⟩, rest, hhandlers⟩ := List.exists_cons_of_ne_nil hbusy
  have hlen := h.single
  rw [hhandlers, List.length_cons] at hlen
  obtain rfl := List.length_eq_zero_iff.mp (by omega : rest.length = 0)
  exact ⟨source, v, hhandlers, (h.busy hbusy).2, h.source _ (hhandlers ▸ List.mem_cons_self)⟩

/-- A handler returns, and nothing is left in service. -/
theorem Inv.leave (h : m.Inv b) (hrunning : m.stage = .running) {p : σ} {l : τ}
    (hpics : ∃ irqs, InService.Inv b.pics 32 40 ⟨p, []⟩ irqs) (hisr : b.lapic.isr l = ∅)
    (hirr : b.lapic.irr l = b.lapic.irr m.lapic) (hmasks : m.apic.isSome = true → p = m.pics) :
    Inv b { m with pics := p, lapic := l, interruptFlag := true, handlers := [] } where
  pics := hpics
  isr := hisr
  single := Nat.zero_le _
  busy hne := absurd rfl hne
  quiet hne := absurd hrunning hne
  source := fun _ hmem => absurd hmem List.not_mem_nil
  base := h.base
  inactive := h.inactive
  entries := h.entries
  irr := by
    rw [hirr]
    exact h.irr
  masks hactive hstage := by
    rw [hmasks hactive]
    exact h.masks hactive hstage

/-- A handler ends its interrupt at the legacy controllers. -/
theorem Inv.finishPic (h : m.Inv b) (hb : b.Documented) {w : UInt8}
    (hhandlers : m.handlers = [(.pic, w)]) (hrunning : m.stage = .running)
    (hapic : m.apic = none) : ∃ m', m.step b .finish = some m' ∧ m'.Inv b := by
  obtain ⟨irqs, hpics⟩ := h.pics
  have hisr := h.isr
  rw [hhandlers] at hpics hisr
  rcases irqs with _ | ⟨irq, irqs⟩
  · exact absurd hpics.handlers (List.cons_ne_nil _ _)
  obtain ⟨t, hstep, ht⟩ := hpics.finish hb.pics offsets_32_40
  obtain ⟨⟨_, p⟩, hnotify, rfl⟩ := Option.map_eq_some_iff.mp hstep
  have hnotify : Interrupts.pics.notifyEndOfInterrupt w b.pics.bus m.pics = some ((), p) := hnotify
  have hfinish : m.step b .finish =
      some { m with pics := p, interruptFlag := true, handlers := [] } := by
    rw [step, hhandlers, hapic]
    dsimp only
    rw [hnotify]
    rfl
  refine ⟨_, hfinish, h.leave hrunning ⟨irqs, ht⟩ hisr rfl fun hactive => ?_⟩
  rw [hapic] at hactive
  cases hactive

/-- A handler ends its interrupt at the local APIC. -/
theorem Inv.finishLapic (h : m.Inv b) (hb : b.Documented) {w : UInt8}
    (hhandlers : m.handlers = [(.lapic, w)]) (hrunning : m.stage = .running)
    (hapic : m.apic = some b.lapicBase) : ∃ m', m.step b .finish = some m' ∧ m'.Inv b := by
  obtain ⟨irqs, hpics⟩ := h.pics
  have hisr := h.isr
  rw [hhandlers] at hpics hisr
  have hend : m.step b .finish = some { m.apply b [.write ⟨b.lapicBase, lapicEoi⟩ 0] with
      interruptFlag := true, handlers := [] } := by
    rw [step, hhandlers, hapic]
    rfl
  rw [apply_endOfInterrupt] at hend
  rw [lapicVectors_lapic] at hisr
  obtain ⟨hirr, hends⟩ := hb.lapic.end_of_interrupt m.lapic
  rw [hisr] at hends
  refine ⟨_, hend, h.leave hrunning ⟨irqs, hpics⟩ ?_ hirr fun _ => rfl⟩
  refine (hends _ (Finset.mem_singleton_self _) fun v hv => ?_).trans (Finset.erase_singleton _)
  exact (Finset.mem_singleton.mp hv).le

/-- **A handler ends its interrupt where it came from.** -/
theorem Inv.finish (h : m.Inv b) (hb : b.Documented) (hbusy : m.handlers ≠ []) :
    ∃ m', m.step b .finish = some m' ∧ m'.Inv b := by
  obtain ⟨source, w, hhandlers, hrunning, hsource⟩ := h.handler hbusy
  rcases hapic : m.apic with _ | base
  · rw [hapic] at hsource
    cases source with
    | pic => exact h.finishPic hb hhandlers hrunning hapic
    | lapic => exact absurd (hsource.mp rfl) (by decide)
  · obtain rfl := h.base base hapic
    rw [hapic] at hsource
    obtain rfl := hsource.mpr rfl
    exact h.finishLapic hb hhandlers hrunning hapic

/-- **The switch**: two entries are routed, and nothing is in service yet. -/
theorem Inv.switch (h : m.Inv b) (hb : b.Documented) (hboot : m.stage = .boot) {info : ApicInfo}
    {physOffset : ℕ} {dev : Device}
    (hlapic : physOffset + info.lapicPhysBase.toNat = b.lapicBase)
    (hioapic : info.ioapicAt physOffset = b.ioapicBase)
    (hstep : m.step b (.switch info physOffset dev) = some m') : m'.Inv b := by
  obtain ⟨⟨ok, log⟩, hinit, hstep⟩ := Option.bind_eq_some_iff.mp hstep
  obtain ⟨rfl, p, q, htable⟩ := Apic.init_spec hinit m.regs
  have hne : info.ioapicAt physOffset ≠ b.lapicBase := hioapic ▸ hb.apart.symm
  obtain ⟨as, hlog, has⟩ := Apic.quiet_init hne _ _ _ _ hinit
  obtain rfl : log = as := hlog
  obtain ⟨hirr, hisr⟩ := hb.lapic.foldl_access has m.lapic
  obtain rfl := Option.some.inj hstep
  have hidle := h.handlers_eq_nil (by rw [hboot]; decide)
  have htable : tableOf (registers b.ioapicBase m.regs log) = Function.update
      (Function.update (tableOf m.regs) p (32, 0)) q (33, 0) := hioapic ▸ htable
  exact
    { pics := h.pics
      isr := hisr.trans h.isr
      single := h.single
      busy := fun hne => absurd hidle hne
      quiet := fun _ => rfl
      source := by
        rw [show (m.apply b log).handlers = [] from hidle]
        exact fun _ hmem => absurd hmem List.not_mem_nil
      base := fun base heq => (Option.some.inj heq).symm.trans hlapic
      inactive := fun heq => by cases heq
      entries := by
        intro pin hentry
        refine ⟨rfl, ?_⟩
        simp only [apply, htable] at hentry ⊢
        by_cases hq : pin = q
        · subst hq
          rw [Function.update_self]
          exact .inr rfl
        · rw [Function.update_of_ne hq] at hentry ⊢
          by_cases hp : pin = p
          · subst hp
            rw [Function.update_self]
            exact .inl rfl
          · rw [Function.update_of_ne hp] at hentry ⊢
            exact (h.entries pin hentry).2
      irr := fun v hv => ⟨rfl, (h.irr v (hirr ▸ hv)).2⟩
      masks := fun _ hne => absurd rfl hne }

/-- `mask_all` masks. -/
theorem Inv.maskAll (h : m.Inv b) (hb : b.Documented) (hstage : m.stage = .switched)
    (hstep : m.step b .maskAll = some m') : m'.Inv b := by
  obtain ⟨irqs, hpics⟩ := h.pics
  obtain ⟨p, hmask, hready, himr, hisr⟩ := maskAll_spec hb.pics hpics.ready
  have hmask : Interrupts.pics.maskAll b.pics.bus m.pics = some ((), p) := hmask
  rw [step, hmask] at hstep
  obtain rfl := Option.some.inj hstep
  have hquiet := h.quiet (by rw [hstage]; decide)
  exact
    { pics := ⟨irqs, hpics.of_isr hready hisr⟩
      isr := h.isr
      single := h.single
      busy := fun hne => absurd (h.handlers_eq_nil (by rw [hstage]; decide)) hne
      quiet := fun _ => hquiet
      source := h.source
      base := h.base
      inactive := fun heq => by cases heq
      entries := h.entries
      irr := h.irr
      masks := fun _ _ => himr .master }

/-- Only the interrupt flag changes, where no handler runs. -/
theorem Inv.setFlag (h : m.Inv b) (hrunning : m.stage = .running) (hidle : m.handlers = [])
    (flag : Bool) : Inv b { m with interruptFlag := flag } :=
  { h with
    busy := fun hne => absurd hidle hne
    quiet := fun hne => absurd hrunning hne }

/-- The boot is over. -/
theorem Inv.enterRunning (h : m.Inv b) (hstage : m.stage = .boot ∨ m.stage = .masked) :
    Inv b { m with interruptFlag := true, stage := .running } := by
  have hidle : m.handlers = [] := by
    rcases hstage with heq | heq <;> exact h.handlers_eq_nil (by rw [heq]; decide)
  exact
    { h with
      busy := fun hne => absurd hidle hne
      quiet := fun hne => absurd rfl hne
      inactive := fun heq => by cases heq
      masks := fun hactive _ => h.masks hactive fun heq => by
        rcases hstage with hs | hs <;> exact absurd (heq.symm.trans hs) (by decide) }

/-- **Every step keeps the controllers and the handlers together.** -/
theorem Inv.step (h : m.Inv b) (hb : b.Documented) {e : Event} (hok : m.Allowed b e)
    (hstep : m.step b e = some m') : m'.Inv b := by
  cases e with
  | raise irq =>
    obtain rfl := Option.some.inj hstep
    exact h.raise hb hok
  | lower irq =>
    obtain rfl := Option.some.inj hstep
    exact h.keeps (hb.pics.lower irq m.pics hok)
  | take source =>
    cases source with
    | pic => exact h.takePic hb hok.1 hok.2 hstep
    | lapic =>
      obtain ⟨m'', hm'', hinv⟩ := h.takeLapic hb hok.1 hok.2
      obtain rfl := Option.some.inj (hstep.symm.trans hm'')
      exact hinv
  | finish =>
    obtain ⟨m'', hm'', hinv⟩ := h.finish hb hok
    obtain rfl := Option.some.inj (hstep.symm.trans hm'')
    exact hinv
  | fallback =>
    obtain rfl := Option.some.inj hstep
    exact h.enterRunning (.inl hok)
  | switch info physOffset dev => exact h.switch hb hok.1 hok.2.1 hok.2.2 hstep
  | maskAll => exact h.maskAll hb hok hstep
  | start =>
    obtain rfl := Option.some.inj hstep
    exact h.enterRunning (.inr hok)
  | disable =>
    obtain rfl := Option.some.inj hstep
    exact h.setFlag hok.1 hok.2 false
  | enable =>
    obtain rfl := Option.some.inj hstep
    exact h.setFlag hok.1 hok.2 true

/-- **With the APIC active nothing panics**: every vector that is taken has a handler. -/
theorem Inv.step_isSome (h : m.Inv b) (hb : b.Documented) (hrunning : m.stage = .running)
    (hactive : m.apic.isSome = true) {e : Event} (hok : m.Allowed b e) : (m.step b e).isSome := by
  cases e with
  | raise irq => rfl
  | lower irq => rfl
  | take source =>
    cases source with
    | pic => exact Bool.noConfusion ((h.int_eq_false hb hrunning hactive).symm.trans hok.2)
    | lapic =>
      obtain ⟨m', hm', -⟩ := h.takeLapic hb hok.1 hok.2
      rw [hm']
      rfl
  | finish =>
    obtain ⟨m', hm', -⟩ := h.finish hb hok
    rw [hm']
    rfl
  | fallback => exact absurd (hrunning.symm.trans hok) (by decide)
  | switch info physOffset dev => exact absurd (hrunning.symm.trans hok.1) (by decide)
  | maskAll => exact absurd (hrunning.symm.trans hok) (by decide)
  | start => exact absurd (hrunning.symm.trans hok) (by decide)
  | disable => rfl
  | enable => rfl

end Machine

section Runs

variable {d d' : σ} {l : τ} {regs : ℕ → UInt32} {events : List Event}

theorem Machine.inv_boot (hb : b.Documented) (hidle : ∀ side, b.pics.isr side d = ∅)
    (hinit : Interrupts.pics.initializePics b.pics.bus d = some ((), d'))
    (hirr : b.lapic.irr l = ∅) (hisr : b.lapic.isr l = ∅)
    (hregs : ∀ pin, (tableOf regs pin).1 &&& redirMasked ≠ 0) :
    (Machine.boot d' l regs).Inv b where
  pics := ⟨[], InService.inv_start hb.pics offsets_32_40 hidle hinit⟩
  isr := hisr
  single := Nat.zero_le _
  busy hne := absurd rfl hne
  quiet _ := rfl
  source := fun _ hmem => absurd hmem List.not_mem_nil
  base _ heq := by cases heq
  inactive _ := rfl
  entries pin hentry := absurd hentry (hregs pin)
  irr v hv := by
    rw [show (Machine.boot d' l regs).lapic = l from rfl, hirr] at hv
    exact absurd hv (Finset.notMem_empty _)
  masks hactive := by cases hactive

/-- **The handover is safe**, where the controllers do what is documented and the kernel finds them
with nothing in service or asked for at the local APIC and with all entries of the I/O APIC masked:
in every interleaving of the boot with devices that ask for interrupts, at most one handler runs, it
ends its interrupt at the controller it came from, and when none runs, none of the controllers has
an interrupt in service.  Once the APIC is in charge the legacy controllers signal nothing, and
nothing panics. -/
theorem handover_safe (hb : b.Documented) (hidle : ∀ side, b.pics.isr side d = ∅)
    (hinit : pics.initializePics b.pics.bus d = some ((), d')) (hirr : b.lapic.irr l = ∅)
    (hisr : b.lapic.isr l = ∅) (hregs : ∀ pin, (tableOf regs pin).1 &&& redirMasked ≠ 0)
    (hrun : Run (Machine.step b) (Machine.Allowed b) (.boot d' l regs) events m) :
    m.handlers.length ≤ 1 ∧ (∀ h ∈ m.handlers, h.1 = .lapic ↔ m.apic.isSome = true) ∧
      (m.handlers = [] → (∀ side, b.pics.isr side m.pics = ∅) ∧ b.lapic.isr m.lapic = ∅) ∧
      (m.stage = .running → m.apic.isSome = true → b.pics.int m.pics = false ∧
        ∀ e, m.Allowed b e → (m.step b e).isSome) := by
  have h : m.Inv b := hrun.invariant (P := Machine.Inv b)
    (fun _ _ _ h hok hstep => h.step hb hok hstep)
    (Machine.inv_boot hb hidle hinit hirr hisr hregs)
  refine ⟨h.single, h.source, fun hidle => ?_, fun hrunning hactive =>
    ⟨h.int_eq_false hb hrunning hactive, fun e hok => h.step_isSome hb hrunning hactive hok⟩⟩
  obtain ⟨irqs, hpics⟩ := h.pics
  have hirqs := hpics.handlers
  rw [hidle] at hirqs
  obtain rfl := List.map_eq_nil_iff.mp hirqs.symm
  refine ⟨fun side => ?_, h.isr.trans (by rw [hidle]; rfl)⟩
  cases side with
  | master => exact hpics.master_isr
  | slave => exact hpics.slave_isr

/-- The message of a pin, unless it is masked. -/
def messageOf (regs : ℕ → UInt32) (pin : ℕ) : Option (Fin 256) :=
  if (tableOf regs pin).1 &&& redirMasked = 0 then some (vectorOf (tableOf regs pin).1) else none

/-- A PC, with the timer on pin 2 of its I/O APIC. -/
def pcBoard : Board Pics8259 XApic where
  lapicBase := 0x80fee00000
  ioapicBase := 0x80fec00000
  pics := pics8259
  lapic := xApic 0x80fee00000
  forward regs irq := messageOf regs (if irq = 0 then 2 else irq)

theorem pcBoard_documented : pcBoard.Documented where
  apart := by decide
  pics := pics8259_documented
  lapic := xApic_documented _
  forward regs irq v h := by
    obtain ⟨hentry, hv⟩ := Option.ite_none_right_eq_some.mp h
    exact ⟨_, hentry, (Option.some.inj hv).symm⟩

/-- The keyboard asks for an interrupt before the switch and after it. -/
def keyboardAsks : List Event :=
  [.raise 1, .switch (Apic.timerInfo 2) 0x8000000000 Apic.pcDevice, .maskAll, .start, .raise 1,
    .take .lapic]

/-- Only the second is heard, from the local APIC. -/
theorem handover_safe_keyboardAsks : ∃ m,
    Run (Machine.step pcBoard) (Machine.Allowed pcBoard)
        (.boot configured ⟨true, ∅, ∅⟩ fun _ => redirMasked) keyboardAsks m ∧
      m.handlers = [(.lapic, 33)] ∧ m.apic.isSome = true := by
  have hgo : (runFrom (Machine.step pcBoard) (Machine.Allowed pcBoard)
      (.boot configured ⟨true, ∅, ∅⟩ fun _ => redirMasked) keyboardAsks).any
      (fun m => decide (m.handlers = [(.lapic, 33)])) = true := by
    decide +kernel
  simp only [Option.any_eq_true, decide_eq_true_eq] at hgo
  obtain ⟨m, hm, hhandlers⟩ := hgo
  have hrun := Run.of_runFrom hm
  have hmasked : ∀ pin, (tableOf (fun _ => redirMasked) pin).1 &&& redirMasked ≠ 0 := fun _ =>
    show redirMasked &&& redirMasked ≠ 0 by decide
  obtain ⟨-, hsource, -⟩ := handover_safe (d := leftOver) pcBoard_documented
    (fun side => by cases side <;> rfl) initializePics_leftOver rfl rfl hmasked hrun
  exact ⟨m, hrun, hhandlers, (hsource _ (hhandlers ▸ List.mem_cons_self)).mp rfl⟩

end Runs

end YontiOs.Interrupts
