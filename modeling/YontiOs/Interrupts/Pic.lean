import YontiOs.Interrupts.Pic8259
import YontiOs.Machinery.Run

/-!
# Interrupts/Pic — the driver of the two interrupt controllers

`ChainedPics` is the driver; of the controllers it is known what is documented
(`PicPair.Documented`).  From whatever state they are in, `initialize` leaves them configured, with
the masks they had (`initializePics_spec`).  The driver ends an interrupt without saying which one,
so a controller ends the one of highest priority.

As long as a request stands until the processor has acknowledged it, every end of interrupt ends the
interrupt whose handler sends it, in whatever way handlers interrupt one another
(`pics_in_service`).  A request that goes away too early leaves the processor with the vector of
line 7, and the driver ends an interrupt that was not taken up; even then a masked IRQ stays masked
(`masked_never_taken`).
-/

namespace YontiOs.Interrupts

open PortM

/-! ## The driver -/

def cmdInit : UInt8 := 0x11
def cmdEndOfInterrupt : UInt8 := 0x20
def mode8086 : UInt8 := 0x01

structure Pic where
  offset : UInt8
  command : ℕ
  data : ℕ

namespace Pic

variable {σ : Type}

/-- `handles_interrupt(interrupt_id)`: the sum is one of `u8`, and is computed only if the first
comparison holds. -/
def handlesInterrupt (pic : Pic) (interruptId : UInt8) : PortM σ Bool :=
  if pic.offset ≤ interruptId then do
    let stop ← checked (Word.byte (pic.offset.toNat + 8))
    return decide (interruptId < stop)
  else return false

def endOfInterrupt (pic : Pic) : PortM σ Unit := write pic.command cmdEndOfInterrupt

end Pic

/-- `ChainedPics`, with the two elements of its array. -/
structure ChainedPics where
  pic1 : Pic
  pic2 : Pic

namespace ChainedPics

variable {σ : Type}

def new (offset1 offset2 : UInt8) : ChainedPics :=
  ⟨⟨offset1, 0x20, 0x21⟩, ⟨offset2, 0xA0, 0xA1⟩⟩

/-- `wait`, in `initialize`. -/
def wait : PortM σ Unit := write 0x80 0

/-- `initialize()`. -/
def initializePics (pics : ChainedPics) : PortM σ Unit := do
  let savedMask1 ← read pics.pic1.data
  let savedMask2 ← read pics.pic2.data
  write pics.pic1.command cmdInit
  wait
  write pics.pic2.command cmdInit
  wait
  write pics.pic1.data pics.pic1.offset
  wait
  write pics.pic2.data pics.pic2.offset
  wait
  write pics.pic1.data 4
  wait
  write pics.pic2.data 2
  wait
  write pics.pic1.data mode8086
  wait
  write pics.pic2.data mode8086
  wait
  write pics.pic1.data savedMask1
  write pics.pic2.data savedMask2

def notifyEndOfInterrupt (pics : ChainedPics) (interruptId : UInt8) : PortM σ Unit := do
  if ← pics.pic2.handlesInterrupt interruptId then pics.pic2.endOfInterrupt
  pics.pic1.endOfInterrupt

/-- `mask_irq(irq)`. -/
def maskIrq (pics : ChainedPics) (irq : UInt8) : PortM σ Unit := do
  assert (irq < 16)
  if irq < 8 then
    let mask ← read pics.pic1.data
    write pics.pic1.data (mask ||| (1 <<< irq))
  else
    let mask ← read pics.pic2.data
    write pics.pic2.data (mask ||| (1 <<< (irq - 8)))

def maskAll (pics : ChainedPics) : PortM σ Unit := do
  write pics.pic1.data 0xFF
  write pics.pic2.data 0xFF

end ChainedPics

variable {σ : Type} {c : PicPair σ} {s d d' : σ} {o₁ o₂ v : UInt8} {irq : Fin 16}

/-! ## Configuration -/

/-- The words `initialize` writes before it restores the masks; port `0x80` is no controller's. -/
def icwWords (o₁ o₂ : UInt8) : List (ℕ × UInt8) :=
  [(0x20, cmdInit), (0x80, 0), (0xA0, cmdInit), (0x80, 0), (0x21, o₁), (0x80, 0), (0xA1, o₂),
    (0x80, 0), (0x21, 4), (0x80, 0), (0xA1, 2), (0x80, 0), (0x21, mode8086), (0x80, 0),
    (0xA1, mode8086), (0x80, 0)]

theorem configures_master (o₁ o₂ : UInt8) : Configures (icwWords o₁ o₂) .master o₁ 4 := rfl

theorem configures_slave (o₁ o₂ : UInt8) : Configures (icwWords o₁ o₂) .slave o₂ 2 := rfl

/-- **`initialize` configures both controllers and keeps their masks**, and takes up no
interrupt. -/
theorem initializePics_spec (hc : c.Documented) (o₁ o₂ : UInt8) (s : σ) :
    ∃ s', (ChainedPics.new o₁ o₂).initializePics c.bus s = some ((), s') ∧
      c.Ready (o₁ &&& 0xF8) (o₂ &&& 0xF8) s' ∧ (∀ side, c.imr side s' = c.imr side s) ∧
      ∀ side, c.isr side s' ⊆ c.isr side s := by
  obtain ⟨hmask₁, hkeep₁⟩ := hc.read_mask .master s
  obtain ⟨hmask₂, hkeep₂⟩ := hc.read_mask .slave (c.bus.read 0x21 s).2
  obtain ⟨hready, hisr⟩ := hc.configure (icwWords o₁ o₂) o₁ o₂
    (c.bus.read 0xA1 (c.bus.read 0x21 s).2).2 (configures_master o₁ o₂) (configures_slave o₁ o₂)
  obtain ⟨hready, himr, -, hisr₁⟩ :=
    hc.write_mask .master (c.bus.read 0x21 s).1 _ _ _ hready
  obtain ⟨hready, himr', hother, hisr₂⟩ :=
    hc.write_mask .slave (c.bus.read 0xA1 (c.bus.read 0x21 s).2).1 _ _ _ hready
  refine ⟨_, rfl, hready, fun side => ?_, fun side => ?_⟩
  · cases side with
    | master => exact (hother .master (by decide)).trans (himr.trans hmask₁)
    | slave => exact himr'.trans (hmask₂.trans (hkeep₁.imr .slave))
  · have hbefore : c.isr side (c.bus.read 0xA1 (c.bus.read 0x21 s).2).2 = c.isr side s :=
      (hkeep₂.isr side).trans (hkeep₁.isr side)
    rw [← hbefore]
    exact ((hisr₂ side).trans (hisr₁ side)).le.trans (hisr side)

/-! ## Interrupts being handled -/

/-- The controllers, and the vectors of the handlers that run, the innermost first. -/
structure InService (σ : Type) where
  pics : σ
  handlers : List UInt8
deriving DecidableEq

/-- What happens: the line of a device goes up or down, the processor acknowledges an interrupt, the
innermost handler ends its interrupt and returns, a line is masked. -/
inductive PicOp
  | raise (irq : Fin 16)
  | lower (irq : Fin 16)
  | deliver
  | finish
  | mask (irq : Fin 16)
deriving DecidableEq, Repr

namespace InService

def step (c : PicPair σ) (driver : ChainedPics) (s : InService σ) : PicOp → Option (InService σ)
  | .raise irq => some { s with pics := c.raise irq s.pics }
  | .lower irq => some { s with pics := c.lower irq s.pics }
  | .deliver => some ⟨(c.inta s.pics).2, (c.inta s.pics).1 :: s.handlers⟩
  | .finish =>
    match s.handlers with
    | [] => none
    | v :: handlers =>
      (driver.notifyEndOfInterrupt v c.bus s.pics).map fun r => ⟨r.2, handlers⟩
  | .mask irq =>
    (driver.maskIrq (UInt8.ofNat irq) c.bus s.pics).map fun r => { s with pics := r.2 }

/-- Line 2 is the second controller's, and only a running handler ends an interrupt. -/
def Possible (s : InService σ) : PicOp → Prop
  | .raise irq | .lower irq => irq ≠ 2
  | .finish => s.handlers ≠ []
  | .deliver | .mask _ => True

/-- The processor acknowledges an interrupt only while it is signalled: no request goes away between
the signal and the answer. -/
def Prompt (c : PicPair σ) (s : InService σ) (op : PicOp) : Prop :=
  s.Possible op ∧ (op = .deliver → c.int s.pics = true)

instance (s : InService σ) : ∀ op, Decidable (s.Possible op)
  | .raise irq | .lower irq => inferInstanceAs (Decidable (irq ≠ 2))
  | .finish => inferInstanceAs (Decidable (s.handlers ≠ []))
  | .deliver | .mask _ => inferInstanceAs (Decidable True)

instance (c : PicPair σ) (s : InService σ) (op : PicOp) : Decidable (s.Prompt c op) :=
  inferInstanceAs (Decidable (_ ∧ _))

end InService

/-- The lines of the first controller that some IRQs come in on. -/
def masterLines (irqs : List (Fin 16)) : Finset (Fin 8) := (irqs.map masterLine).toFinset

/-- The lines of the second. -/
def slaveLines (irqs : List (Fin 16)) : Finset (Fin 8) :=
  ((irqs.filter fun irq => 8 ≤ irq.val).map slaveLine).toFinset

/-- **The interrupts in service are those whose handlers run**, and each handler was interrupted
only by interrupts of higher priority. -/
structure InService.Inv (c : PicPair σ) (o₁ o₂ : UInt8) (s : InService σ) (irqs : List (Fin 16)) :
    Prop where
  ready : c.Ready o₁ o₂ s.pics
  handlers : s.handlers = irqs.map (vector o₁ o₂)
  master_isr : c.isr .master s.pics = masterLines irqs
  slave_isr : c.isr .slave s.pics = slaveLines irqs
  nested : irqs.Pairwise fun a b => masterLine a < masterLine b

/-! ## Ending an interrupt -/

/-- The offsets a pair of controllers may have: they are cut to multiples of eight, and the driver
adds eight to the second in a `u8`. -/
structure Offsets (o₁ o₂ : UInt8) : Prop where
  first : o₁.toNat % 8 = 0
  second : o₂.toNat % 8 = 0
  ne : o₁ ≠ o₂
  lt : o₂.toNat + 8 < 256

section Ending

variable {irqs : List (Fin 16)} {t : InService σ}

theorem toNat_add_ofNat {o : UInt8} (ho : o.toNat % 8 = 0) {k : ℕ} (hk : k < 8) :
    (o + UInt8.ofNat k).toNat = o.toNat + k := by
  have hlt := o.toNat_lt
  rw [UInt8.toNat_add, UInt8.toNat_ofNat']
  omega

namespace Offsets

theorem toNat_ne (h : Offsets o₁ o₂) : o₁.toNat ≠ o₂.toNat := fun heq =>
  h.ne (UInt8.toNat_inj.mp heq)

theorem toNat_vector (h : Offsets o₁ o₂) (irq : Fin 16) : (vector o₁ o₂ irq).toNat =
    if irq.val < 8 then o₁.toNat + irq else o₂.toNat + (irq - 8) := by
  rw [vector]
  split_ifs with hirq
  · exact toNat_add_ofNat h.first hirq
  · exact toNat_add_ofNat h.second (by omega)

/-- Every IRQ has a vector of its own. -/
theorem vector_injective (h : Offsets o₁ o₂) : Function.Injective (vector o₁ o₂) := by
  intro a b heq
  have hv := congrArg UInt8.toNat heq
  rw [h.toNat_vector, h.toNat_vector] at hv
  have h1 := h.first
  have h2 := h.second
  have hne := h.toNat_ne
  ext
  split_ifs at hv <;> omega

/-- The vectors of the second controller, in the driver's arithmetic. -/
theorem handlesInterrupt (h : Offsets o₁ o₂) (command data : ℕ) (v : UInt8) (s : σ) :
    (⟨o₂, command, data⟩ : Pic).handlesInterrupt v c.bus s =
      some (decide (o₂.toNat ≤ v.toNat ∧ v.toNat < o₂.toNat + 8), s) := by
  have hbyte : Word.byte (o₂.toNat + 8) = some (UInt8.ofNat (o₂.toNat + 8)) := if_pos h.lt
  have hstop : (UInt8.ofNat (o₂.toNat + 8)).toNat = o₂.toNat + 8 := Word.byte_eq_some hbyte
  rw [Pic.handlesInterrupt]
  dsimp only
  split_ifs with hle
  · have hchecked : (checked (Word.byte (o₂.toNat + 8)) : PortM σ UInt8) c.bus s =
        some (UInt8.ofNat (o₂.toNat + 8), s) := by rw [checked, hbyte, Option.map_some]
    rw [bind_run hchecked, pure_run]
    rw [UInt8.le_iff_toNat_le] at hle
    simp only [UInt8.lt_iff_toNat_lt, hstop, hle, true_and]
  · rw [pure_run]
    rw [UInt8.le_iff_toNat_le] at hle
    simp only [hle, false_and, decide_false]

theorem handles_vector_iff (h : Offsets o₁ o₂) (irq : Fin 16) :
    o₂.toNat ≤ (vector o₁ o₂ irq).toNat ∧ (vector o₁ o₂ irq).toNat < o₂.toNat + 8 ↔
      8 ≤ irq.val := by
  have h1 := h.first
  have h2 := h.second
  have hne := h.toNat_ne
  rw [h.toNat_vector]
  split_ifs <;> omega

end Offsets

/-- The end of an interrupt at one controller. -/
def PicPair.eoi (c : PicPair σ) (side : Side) (s : σ) : σ :=
  c.bus.write side.command cmdEndOfInterrupt s

/-- **What an end of interrupt does**: the second controller gets it with its own vectors only. -/
theorem Offsets.notifyEndOfInterrupt (h : Offsets o₁ o₂) (v : UInt8) (s : σ) :
    (ChainedPics.new o₁ o₂).notifyEndOfInterrupt v c.bus s = some ((), c.eoi .master
      (if o₂.toNat ≤ v.toNat ∧ v.toNat < o₂.toNat + 8 then c.eoi .slave s else s)) := by
  rw [ChainedPics.notifyEndOfInterrupt, ChainedPics.new, bind_run (h.handlesInterrupt _ _ v s)]
  by_cases hv : o₂.toNat ≤ v.toNat ∧ v.toNat < o₂.toNat + 8
  · rw [if_pos hv, decide_eq_true hv]
    rfl
  · rw [if_neg hv, decide_eq_false hv]
    rfl

theorem masterLines_cons :
    masterLines (irq :: irqs) = insert (masterLine irq) (masterLines irqs) := by
  rw [masterLines, List.map_cons, List.toFinset_cons]
  rfl

theorem mem_masterLines {n : Fin 8} : n ∈ masterLines irqs ↔ ∃ b ∈ irqs, masterLine b = n := by
  rw [masterLines, List.mem_toFinset, List.mem_map]

theorem slaveLines_cons : slaveLines (irq :: irqs) =
    if 8 ≤ irq.val then insert (slaveLine irq) (slaveLines irqs) else slaveLines irqs := by
  rw [slaveLines, List.filter_cons]
  by_cases hirq : 8 ≤ irq.val
  · rw [if_pos (decide_eq_true hirq), if_pos hirq, List.map_cons, List.toFinset_cons]
    rfl
  · rw [if_neg (by simpa using hirq), if_neg hirq]
    rfl

/-- While the second controller's line is blocked, none of its interrupts is in service. -/
theorem slaveLines_eq_empty (h : ∀ b ∈ irqs, 2 < masterLine b) : slaveLines irqs = ∅ := by
  have hnone : (irqs.filter fun irq => 8 ≤ irq.val) = [] := by
    refine List.filter_eq_nil_iff.mpr fun b hb hhigh => ?_
    have hlt := h b hb
    rw [masterLine_high (of_decide_eq_true hhigh)] at hlt
    exact lt_irrefl _ hlt
  rw [slaveLines, hnone]
  rfl

/-- The innermost interrupt is the one of highest priority at the first controller. -/
theorem masterLines_erase (h : (irq :: irqs).Pairwise fun a b => masterLine a < masterLine b) :
    (∀ m ∈ masterLines (irq :: irqs), masterLine irq ≤ m) ∧
      (masterLines (irq :: irqs)).erase (masterLine irq) = masterLines irqs := by
  obtain ⟨hbelow, -⟩ := List.pairwise_cons.mp h
  constructor
  · intro m hm
    obtain ⟨b, hb, rfl⟩ := mem_masterLines.mp hm
    rcases List.mem_cons.mp hb with rfl | hb
    · exact le_rfl
    · exact (hbelow b hb).le
  · rw [masterLines_cons]
    refine Finset.erase_insert fun hmem => ?_
    obtain ⟨b, hb, heq⟩ := mem_masterLines.mp hmem
    exact (hbelow b hb).ne' heq

/-- One of the second controller is the only one there. -/
theorem slaveLines_erase (h : (irq :: irqs).Pairwise fun a b => masterLine a < masterLine b)
    (hirq : 8 ≤ irq.val) : slaveLines (irq :: irqs) = {slaveLine irq} ∧ slaveLines irqs = ∅ := by
  obtain ⟨hbelow, -⟩ := List.pairwise_cons.mp h
  rw [masterLine_high hirq] at hbelow
  have hempty := slaveLines_eq_empty hbelow
  refine ⟨?_, hempty⟩
  rw [slaveLines_cons, if_pos hirq, hempty]
  rfl

/-- The second controller's part of the end of an interrupt. -/
theorem InService.Inv.eoi_slave (h : t.Inv c o₁ o₂ (irq :: irqs)) (hc : c.Documented) :
    ∃ s', (if 8 ≤ irq.val then c.eoi .slave t.pics else t.pics) = s' ∧ c.Ready o₁ o₂ s' ∧
      c.isr .master s' = masterLines (irq :: irqs) ∧ c.isr .slave s' = slaveLines irqs := by
  split_ifs with hirq
  · obtain ⟨hall, hnone⟩ := slaveLines_erase h.nested hirq
    have hisr := h.slave_isr.trans hall
    obtain ⟨hready, -, hother, hend⟩ := hc.end_of_interrupt .slave o₁ o₂ t.pics h.ready
    refine ⟨_, rfl, hready, (hother .master (by decide)).trans h.master_isr, ?_⟩
    rw [hisr] at hend
    rw [hnone]
    refine (hend (slaveLine irq) (Finset.mem_singleton_self _) fun m hm => ?_).trans
      (Finset.erase_singleton _)
    exact (Finset.mem_singleton.mp hm).ge
  · refine ⟨_, rfl, h.ready, h.master_isr, h.slave_isr.trans ?_⟩
    rw [slaveLines_cons, if_neg hirq]

/-- **The innermost handler ends its own interrupt.** -/
theorem InService.Inv.finish (h : t.Inv c o₁ o₂ (irq :: irqs)) (hc : c.Documented)
    (ho : Offsets o₁ o₂) :
    ∃ t', t.step c (.new o₁ o₂) .finish = some t' ∧ t'.Inv c o₁ o₂ irqs := by
  obtain ⟨s', hs', hready, hmaster, hslave⟩ := h.eoi_slave hc
  obtain ⟨hready', -, hother, hend⟩ := hc.end_of_interrupt .master o₁ o₂ s' hready
  obtain ⟨hmin, herase⟩ := masterLines_erase h.nested
  rw [hmaster] at hend
  have hstep : t.step c (.new o₁ o₂) .finish =
      some ⟨c.eoi .master s', irqs.map (vector o₁ o₂)⟩ := by
    rw [step, h.handlers, List.map_cons]
    dsimp only
    rw [ho.notifyEndOfInterrupt, if_congr (ho.handles_vector_iff irq) rfl rfl, hs',
      Option.map_some]
  refine ⟨_, hstep, hready', rfl, ?_, (hother .slave (by decide)).trans hslave,
    (List.pairwise_cons.mp h.nested).2⟩
  refine (hend (masterLine irq) ?_ hmin).trans herase
  rw [masterLines_cons]
  exact Finset.mem_insert_self _ _

end Ending

/-! ## Taking an interrupt -/

section Taking

variable {irqs : List (Fin 16)} {t t' : InService σ}

/-- **A request is heard if it is of higher priority than all whose handlers run.** -/
theorem InService.Inv.asks_iff (h : t.Inv c o₁ o₂ irqs) :
    c.Asks t.pics irq ↔ irq ∈ c.irr t.pics ∧ irq ≠ 2 ∧ c.Unmasked t.pics irq ∧
      ∀ b ∈ irqs, masterLine irq < masterLine b := by
  constructor
  · intro hasks
    refine ⟨hasks.request, hasks.device, hasks.unmasked, fun b hb => hasks.above _ ?_⟩
    rw [h.master_isr]
    exact mem_masterLines.mpr ⟨b, hb, rfl⟩
  · rintro ⟨hrequest, hdevice, hunmasked, habove⟩
    refine ⟨hrequest, hdevice, hunmasked, fun n hn => ?_, fun hirq n hn => ?_⟩
    · rw [h.master_isr] at hn
      obtain ⟨b, hb, rfl⟩ := mem_masterLines.mp hn
      exact habove b hb
    · rw [masterLine_high hirq] at habove
      rw [h.slave_isr, slaveLines_eq_empty habove] at hn
      exact absurd hn (Finset.notMem_empty _)

theorem InService.Inv.int_iff (h : t.Inv c o₁ o₂ irqs) (hc : c.Documented) :
    c.int t.pics = true ↔ ∃ irq ∈ c.irr t.pics, irq ≠ 2 ∧ c.Unmasked t.pics irq ∧
      ∀ b ∈ irqs, masterLine irq < masterLine b := by
  rw [hc.int_iff o₁ o₂ t.pics h.ready]
  exact exists_congr fun irq => h.asks_iff

/-- **Taking an interrupt** starts its handler. -/
theorem InService.Inv.deliver (h : t.Inv c o₁ o₂ irqs) (hc : c.Documented)
    (hint : c.int t.pics = true) : ∃ irqs',
      InService.Inv c o₁ o₂ ⟨(c.inta t.pics).2, (c.inta t.pics).1 :: t.handlers⟩ irqs' := by
  obtain ⟨irq, hasks, hvector, hserves⟩ := hc.inta o₁ o₂ t.pics h.ready hint
  refine ⟨irq :: irqs, hserves.ready o₁ o₂ h.ready, ?_, ?_, ?_, ?_⟩
  · rw [hvector, h.handlers, List.map_cons]
  · rw [hserves.master, h.master_isr, masterLines_cons]
  · rw [hserves.slave, h.slave_isr, slaveLines_cons]
  · exact List.pairwise_cons.mpr ⟨(h.asks_iff.mp hasks).2.2.2, h.nested⟩

/-! ## Other steps, and runs -/

/-- Only the configuration and the interrupts in service have a part in it. -/
theorem InService.Inv.of_isr (h : t.Inv c o₁ o₂ irqs) {s' : σ} (hready : c.Ready o₁ o₂ s')
    (hisr : ∀ side, c.isr side s' = c.isr side t.pics) :
    InService.Inv c o₁ o₂ ⟨s', t.handlers⟩ irqs :=
  ⟨hready, h.handlers, (hisr .master).trans h.master_isr, (hisr .slave).trans h.slave_isr, h.nested⟩

theorem InService.Inv.keeps (h : t.Inv c o₁ o₂ irqs) {s' : σ} (hkeep : c.Keeps t.pics s') :
    InService.Inv c o₁ o₂ ⟨s', t.handlers⟩ irqs :=
  h.of_isr (hkeep.ready o₁ o₂ h.ready) hkeep.isr

/-- **A device that asks is heard at once**, unless it is masked or an interrupt of at least its
priority is being handled. -/
theorem InService.Inv.int_raise (h : t.Inv c o₁ o₂ irqs) (hc : c.Documented) (hirq : irq ≠ 2)
    (hunmasked : c.Unmasked t.pics irq) (habove : ∀ b ∈ irqs, masterLine irq < masterLine b) :
    c.int (c.raise irq t.pics) = true := by
  obtain ⟨hkeep, hrequest⟩ := hc.raise irq t.pics hirq
  refine ((h.keeps hkeep).int_iff hc).mpr ⟨irq, hrequest, hirq, ⟨?_, fun hhigh => ?_⟩, habove⟩
  · rw [PicPair.masked, hkeep.imr]
    exact hunmasked.master
  · rw [PicPair.masked, hkeep.imr]
    exact hunmasked.slave hhigh

/-- The controller an IRQ belongs to. -/
def sideOf (irq : Fin 16) : Side := if irq.val < 8 then .master else .slave

/-- Its line there. -/
def lineOf (irq : Fin 16) : Fin 8 := if irq.val < 8 then masterLine irq else slaveLine irq

/-- The mask of an IRQ's own controller keeps it from the processor. -/
def PicPair.Masked (c : PicPair σ) (s : σ) (irq : Fin 16) : Prop :=
  c.masked (sideOf irq) s (lineOf irq) = true

/-- A masked IRQ does not ask. -/
theorem PicPair.Masked.not_asks (h : c.Masked s irq) : ¬ c.Asks s irq := by
  intro hasks
  rw [Masked, sideOf, lineOf] at h
  split_ifs at h with hirq
  · exact Bool.noConfusion (hasks.unmasked.master.symm.trans h)
  · exact Bool.noConfusion ((hasks.unmasked.slave (not_lt.mp hirq)).symm.trans h)

theorem PicPair.Masked.of_imr (h : c.Masked s irq) {s' : σ}
    (himr : ∀ side, c.imr side s' = c.imr side s) : c.Masked s' irq := by
  rw [Masked, masked, himr]
  exact h

theorem one_shiftLeft : ∀ k : Fin 8, ((1 : UInt8) <<< UInt8.ofNat k).toBitVec = 1#8 <<< k.val := by
  decide

theorem getLsbD_or_shiftLeft (m : UInt8) (k n : Fin 8) :
    (m ||| ((1 : UInt8) <<< UInt8.ofNat k)).toBitVec.getLsbD n =
      (m.toBitVec.getLsbD n || decide (n = k)) := by
  have h : m.toBitVec ||| 1#8 <<< k.val = Word.setBit m.toBitVec k := rfl
  rw [UInt8.toBitVec_or, one_shiftLeft, h, Word.getLsbD_setBit k.isLt]
  congr 1
  rw [decide_eq_decide, Fin.ext_iff]

/-- The lines as the driver's arithmetic has them. -/
theorem ofNat_irq : ∀ irq : Fin 16, UInt8.ofNat irq < 16 ∧ (UInt8.ofNat irq < 8 ↔ irq.val < 8) ∧
    (irq.val < 8 → UInt8.ofNat irq = UInt8.ofNat (lineOf irq)) ∧
    (¬ irq.val < 8 → UInt8.ofNat irq - 8 = UInt8.ofNat (lineOf irq)) := by
  decide

/-- The mask is read, and written with one bit more. -/
theorem maskIrq_run (o₁ o₂ : UInt8) (irq : Fin 16) (s : σ) :
    (ChainedPics.new o₁ o₂).maskIrq (UInt8.ofNat irq) c.bus s =
      some ((), c.bus.write (sideOf irq).data
        ((c.bus.read (sideOf irq).data s).1 ||| 1 <<< UInt8.ofNat (lineOf irq))
        (c.bus.read (sideOf irq).data s).2) := by
  obtain ⟨h16, h8, hlow, hhigh⟩ := ofNat_irq irq
  have hassert : (assert (UInt8.ofNat irq < 16) : PortM σ Unit) c.bus s = some ((), s) := if_pos h16
  rw [ChainedPics.maskIrq, bind_run hassert, sideOf]
  by_cases hirq : irq.val < 8
  · rw [if_pos (h8.mpr hirq), if_pos hirq, ← hlow hirq]
    rfl
  · rw [if_neg fun h => hirq (h8.mp h), if_neg hirq, ← hhigh hirq]
    rfl

/-- **Masking a line** sets its bit in the mask of its controller, and clears none. -/
theorem maskIrq_spec (hc : c.Documented) (h : c.Ready o₁ o₂ s) (irq : Fin 16) :
    ∃ s', (ChainedPics.new o₁ o₂).maskIrq (UInt8.ofNat irq) c.bus s = some ((), s') ∧
      c.Ready o₁ o₂ s' ∧ (∀ side, c.isr side s' = c.isr side s) ∧ c.Masked s' irq ∧
      ∀ b, c.Masked s b → c.Masked s' b := by
  obtain ⟨hmask, hkeep⟩ := hc.read_mask (sideOf irq) s
  obtain ⟨hready, himr, hother, hisr⟩ := hc.write_mask (sideOf irq)
    ((c.bus.read (sideOf irq).data s).1 ||| 1 <<< UInt8.ofNat (lineOf irq)) o₁ o₂ _
    (hkeep.ready o₁ o₂ h)
  refine ⟨_, maskIrq_run o₁ o₂ irq s, hready, fun side => (hisr side).trans (hkeep.isr side), ?_,
    fun b hb => ?_⟩
  · rw [PicPair.Masked, PicPair.masked, himr, getLsbD_or_shiftLeft, decide_eq_true rfl,
      Bool.or_true]
  · rw [PicPair.Masked, PicPair.masked] at hb ⊢
    by_cases hside : sideOf b = sideOf irq
    · rw [hside] at hb ⊢
      rw [himr, hmask, getLsbD_or_shiftLeft, hb, Bool.true_or]
    · rw [hother _ hside, hkeep.imr, hb]

/-- **Masking all lines.** -/
theorem maskAll_spec (hc : c.Documented) (h : c.Ready o₁ o₂ s) :
    ∃ s', (ChainedPics.new o₁ o₂).maskAll c.bus s = some ((), s') ∧ c.Ready o₁ o₂ s' ∧
      (∀ side, c.imr side s' = 0xFF) ∧ ∀ side, c.isr side s' = c.isr side s := by
  obtain ⟨hready₁, himr₁, -, hisr₁⟩ := hc.write_mask .master 0xFF o₁ o₂ s h
  obtain ⟨hready₂, himr₂, hother, hisr₂⟩ := hc.write_mask .slave 0xFF o₁ o₂ _ hready₁
  refine ⟨_, rfl, hready₂, fun side => ?_, fun side => (hisr₂ side).trans (hisr₁ side)⟩
  cases side with
  | master => exact (hother .master (by decide)).trans himr₁
  | slave => exact himr₂

/-- The end of an interrupt, whichever vector it is for. -/
theorem notifyEndOfInterrupt_spec (hc : c.Documented) (ho : Offsets o₁ o₂) (h : c.Ready o₁ o₂ s)
    (v : UInt8) :
    ∃ s', (ChainedPics.new o₁ o₂).notifyEndOfInterrupt v c.bus s = some ((), s') ∧
      c.Ready o₁ o₂ s' ∧ ∀ side, c.imr side s' = c.imr side s := by
  have heoi : ∀ side s, c.Ready o₁ o₂ s → c.Ready o₁ o₂ (c.eoi side s) ∧
      ∀ other, c.imr other (c.eoi side s) = c.imr other s := fun side s h =>
    ⟨(hc.end_of_interrupt side o₁ o₂ s h).1, (hc.end_of_interrupt side o₁ o₂ s h).2.1⟩
  refine ⟨_, ho.notifyEndOfInterrupt v s, ?_⟩
  split_ifs
  · obtain ⟨hready, himr⟩ := heoi .slave s h
    obtain ⟨hready₂, himr₂⟩ := heoi .master _ hready
    exact ⟨hready₂, fun side => (himr₂ side).trans (himr side)⟩
  · exact heoi .master s h

/-- **What any step does**: the controllers stay configured, and what is masked stays masked. -/
theorem InService.step_spec (hc : c.Documented) (ho : Offsets o₁ o₂) (h : c.Ready o₁ o₂ t.pics)
    {op : PicOp} (hop : t.Possible op) :
    ∃ t', t.step c (.new o₁ o₂) op = some t' ∧ c.Ready o₁ o₂ t'.pics ∧
      ∀ b, c.Masked t.pics b ∨ op = .mask b → c.Masked t'.pics b := by
  cases op with
  | raise irq =>
    obtain ⟨hkeep, -⟩ := hc.raise irq t.pics hop
    refine ⟨_, rfl, hkeep.ready o₁ o₂ h, fun b hb => ?_⟩
    exact (hb.resolve_right fun heq => by cases heq).of_imr hkeep.imr
  | lower irq =>
    have hkeep := hc.lower irq t.pics hop
    refine ⟨_, rfl, hkeep.ready o₁ o₂ h, fun b hb => ?_⟩
    exact (hb.resolve_right fun heq => by cases heq).of_imr hkeep.imr
  | deliver =>
    obtain ⟨hready, himr⟩ : c.Ready o₁ o₂ (c.inta t.pics).2 ∧
        ∀ side, c.imr side (c.inta t.pics).2 = c.imr side t.pics := by
      cases hint : c.int t.pics with
      | true =>
        obtain ⟨irq, -, -, hserves⟩ := hc.inta o₁ o₂ t.pics h hint
        exact ⟨hserves.ready o₁ o₂ h, hserves.imr⟩
      | false => exact (hc.inta_default o₁ o₂ t.pics h hint).2
    refine ⟨_, rfl, hready, fun b hb => ?_⟩
    exact (hb.resolve_right fun heq => by cases heq).of_imr himr
  | finish =>
    obtain ⟨v, handlers, hhandlers⟩ := List.exists_cons_of_ne_nil hop
    obtain ⟨s', hrun, hready, himr⟩ := notifyEndOfInterrupt_spec hc ho h v
    refine ⟨⟨s', handlers⟩, ?_, hready, fun b hb => ?_⟩
    · rw [InService.step, hhandlers]
      dsimp only
      rw [hrun, Option.map_some]
    · exact (hb.resolve_right fun heq => by cases heq).of_imr himr
  | mask irq =>
    obtain ⟨s', hrun, hready, -, hmasked, hkeep⟩ := maskIrq_spec hc h irq
    refine ⟨⟨s', t.handlers⟩, ?_, hready, fun b hb => ?_⟩
    · rw [InService.step, hrun, Option.map_some]
    · rcases hb with hb | heq
      · exact hkeep b hb
      · exact PicOp.mask.inj heq ▸ hmasked

/-- **Where requests stand, a step keeps handlers and interrupts in service together.** -/
theorem InService.Inv.step (h : t.Inv c o₁ o₂ irqs) (hc : c.Documented) (ho : Offsets o₁ o₂)
    {op : PicOp} (hop : t.Prompt c op) (hstep : t.step c (.new o₁ o₂) op = some t') :
    ∃ irqs', t'.Inv c o₁ o₂ irqs' := by
  cases op with
  | raise irq =>
    obtain rfl := Option.some.inj hstep
    exact ⟨irqs, h.keeps (hc.raise irq t.pics hop.1).1⟩
  | lower irq =>
    obtain rfl := Option.some.inj hstep
    exact ⟨irqs, h.keeps (hc.lower irq t.pics hop.1)⟩
  | deliver =>
    obtain rfl := Option.some.inj hstep
    exact h.deliver hc (hop.2 rfl)
  | finish =>
    rcases irqs with _ | ⟨irq, irqs⟩
    · exact absurd h.handlers hop.1
    · obtain ⟨t'', hstep', hinv⟩ := h.finish hc ho
      obtain rfl := Option.some.inj (hstep.symm.trans hstep')
      exact ⟨irqs, hinv⟩
  | mask irq =>
    obtain ⟨s', hrun, hready, hisr, -⟩ := maskIrq_spec hc h.ready irq
    rw [InService.step, hrun] at hstep
    obtain rfl := Option.some.inj hstep
    exact ⟨irqs, h.of_isr hready hisr⟩

end Taking

section Runs

variable {t : InService σ} {ops : List PicOp}

/-- The offsets are multiples of eight already. -/
theorem InService.ready_start (hc : c.Documented) (ho : Offsets o₁ o₂)
    (hinit : (ChainedPics.new o₁ o₂).initializePics c.bus d = some ((), d')) :
    c.Ready o₁ o₂ d' ∧ ∀ side, c.isr side d' ⊆ c.isr side d := by
  have hcut : ∀ o : UInt8, o.toNat % 8 = 0 → o &&& 0xF8 = o := by decide +kernel
  obtain ⟨s', hrun, hready, -, hisr⟩ := initializePics_spec hc o₁ o₂ d
  rw [hinit] at hrun
  obtain rfl := (Prod.mk.inj (Option.some.inj hrun)).2
  rw [hcut _ ho.first, hcut _ ho.second] at hready
  exact ⟨hready, hisr⟩

theorem InService.inv_start (hc : c.Documented) (ho : Offsets o₁ o₂)
    (hidle : ∀ side, c.isr side d = ∅)
    (hinit : (ChainedPics.new o₁ o₂).initializePics c.bus d = some ((), d')) :
    InService.Inv c o₁ o₂ ⟨d', []⟩ [] := by
  obtain ⟨hready, hisr⟩ := ready_start hc ho hinit
  have hempty : ∀ side, c.isr side d' = ∅ := fun side =>
    Finset.subset_empty.mp (hidle side ▸ hisr side)
  exact ⟨hready, rfl, hempty .master, hempty .slave, .nil⟩

/-- **The controllers and the handlers agree**, after `initialize` with nothing in service, in every
run in which a request stands until it is acknowledged: no step panics, the interrupts in service
are those whose handlers run, each of higher priority than those it interrupted, the processor is
signalled exactly while an unmasked IRQ of higher priority than all of them requests it, and a
device that asks for such an IRQ is heard at once. -/
theorem pics_in_service (hc : c.Documented) (ho : Offsets o₁ o₂)
    (hidle : ∀ side, c.isr side d = ∅)
    (hinit : (ChainedPics.new o₁ o₂).initializePics c.bus d = some ((), d'))
    (hrun : Run (InService.step c (.new o₁ o₂)) (InService.Prompt c) ⟨d', []⟩ ops t) :
    (∀ op, t.Prompt c op → (t.step c (.new o₁ o₂) op).isSome) ∧
      ∃ irqs : List (Fin 16), t.handlers = irqs.map (vector o₁ o₂) ∧
        c.isr .master t.pics = masterLines irqs ∧ c.isr .slave t.pics = slaveLines irqs ∧
        irqs.Pairwise (fun a b => masterLine a < masterLine b) ∧
        (c.int t.pics = true ↔ ∃ irq ∈ c.irr t.pics, irq ≠ 2 ∧ c.Unmasked t.pics irq ∧
          ∀ b ∈ irqs, masterLine irq < masterLine b) ∧
        ∀ irq, irq ≠ 2 → c.Unmasked t.pics irq → (∀ b ∈ irqs, masterLine irq < masterLine b) →
          c.int (c.raise irq t.pics) = true := by
  obtain ⟨irqs, h⟩ := hrun.invariant (P := fun t => ∃ irqs, t.Inv c o₁ o₂ irqs)
    (fun _ _ _ ⟨_, h⟩ hop hstep => h.step hc ho hop hstep)
    ⟨[], InService.inv_start hc ho hidle hinit⟩
  refine ⟨fun op hop => ?_, irqs, h.handlers, h.master_isr, h.slave_isr, h.nested, h.int_iff hc,
    fun irq hirq hunmasked habove => h.int_raise hc hirq hunmasked habove⟩
  obtain ⟨t', ht', -⟩ := InService.step_spec hc ho h.ready hop.1
  rw [ht']
  rfl

/-- The keyboard asks, the timer interrupts its handler, both end, and the keyboard is masked
before it asks again, with the mouse. -/
def timerNested : List PicOp :=
  [.raise 1, .deliver, .raise 0, .deliver, .finish, .finish, .mask 1, .raise 1, .raise 12]

/-- Controllers left in the middle of a configuration, with a request. -/
def leftOver : Pics8259 :=
  ⟨⟨.icw3, true, false, 8, 0, 0, 0xB8, {6}, ∅⟩, ⟨.icw2, true, false, 0, 0, 0, 0, ∅, ∅⟩⟩

theorem offsets_32_40 : Offsets 32 40 := ⟨rfl, rfl, by decide, by decide⟩

/-- They are configured, with the masks they had. -/
def configured : Pics8259 :=
  ⟨⟨.ready, false, true, 32, 4, mode8086, 0xB8, ∅, ∅⟩,
    ⟨.ready, false, true, 40, 2, mode8086, 0, ∅, ∅⟩⟩

theorem initializePics_leftOver :
    (ChainedPics.new 32 40).initializePics pics8259.bus leftOver = some ((), configured) := rfl

/-- Both handlers have returned, nothing is in service, and the mouse is heard. -/
theorem pics_in_service_timerNested : ∃ t,
    Run (InService.step pics8259 (.new 32 40)) (InService.Prompt pics8259) ⟨configured, []⟩
        timerNested t ∧
      t.handlers = [] ∧ pics8259.isr .master t.pics = ∅ ∧ pics8259.int t.pics = true := by
  have hgo : (runFrom (InService.step pics8259 (.new 32 40)) (InService.Prompt pics8259)
      ⟨configured, []⟩ timerNested).any (fun t => decide (t.handlers = []) &&
        decide (12 ∈ pics8259.irr t.pics) && !pics8259.masked .master t.pics 2 &&
        !pics8259.masked .slave t.pics 4) = true := by decide +kernel
  simp only [Option.any_eq_true, Bool.and_eq_true, decide_eq_true_eq, Bool.not_eq_true'] at hgo
  obtain ⟨t, ht, ⟨⟨hnil, hirr⟩, hmaster⟩, hslave⟩ := hgo
  have hrun := Run.of_runFrom ht
  obtain ⟨-, irqs, hirqs, hisr, -, -, hint, -⟩ := pics_in_service pics8259_documented offsets_32_40
    (d := leftOver) (fun side => by cases side <;> rfl) initializePics_leftOver hrun
  rw [hnil, eq_comm, List.map_eq_nil_iff] at hirqs
  subst hirqs
  exact ⟨t, hrun, hnil, hisr, hint.mpr ⟨12, hirr, by decide, ⟨hmaster, fun _ => hslave⟩,
    fun _ hb => absurd hb List.not_mem_nil⟩⟩

/-- **A masked IRQ is never taken again**: after `mask_irq`, whatever devices, processor and
handlers do, the vector of the IRQ is not the one the processor gets while it is signalled.  If it
answers a request that has gone away, it gets the vector of IRQ 7 or 15, masked or not. -/
theorem masked_never_taken (hc : c.Documented) (ho : Offsets o₁ o₂)
    (hinit : (ChainedPics.new o₁ o₂).initializePics c.bus d = some ((), d'))
    (hrun : Run (InService.step c (.new o₁ o₂)) InService.Possible ⟨d', []⟩ ops t)
    (hmask : PicOp.mask irq ∈ ops) (hv : (c.inta t.pics).1 = vector o₁ o₂ irq) :
    c.int t.pics = false ∧ (irq = 7 ∨ irq = 15) := by
  have hstep : ∀ (t : InService σ) op t', c.Ready o₁ o₂ t.pics → t.Possible op →
      t.step c (.new o₁ o₂) op = some t' → c.Ready o₁ o₂ t'.pics ∧
        ∀ b, c.Masked t.pics b ∨ op = .mask b → c.Masked t'.pics b := by
    intro t op t' h hop hstep
    obtain ⟨t'', hstep', hspec⟩ := InService.step_spec hc ho h hop
    obtain rfl := Option.some.inj (hstep.symm.trans hstep')
    exact hspec
  have hstart := (InService.ready_start hc ho hinit).1
  have hready : c.Ready o₁ o₂ t.pics := hrun.invariant (P := fun t => c.Ready o₁ o₂ t.pics)
    (fun t op t' h hop hs => (hstep t op t' h hop hs).1) hstart
  have hkeep : ∀ (t : InService σ) op t', c.Ready o₁ o₂ t.pics → t.Possible op →
      c.Masked t.pics irq ∨ op = .mask irq → t.step c (.new o₁ o₂) op = some t' →
        c.Masked t'.pics irq := by
    intro t op t' h hop hirq hs
    obtain ⟨-, hall⟩ := hstep t op t' h hop hs
    exact hall irq hirq
  have hmasked := hrun.established (I := fun t => c.Ready o₁ o₂ t.pics)
    (P := fun t => c.Masked t.pics irq) (fun t op t' h hop hs => (hstep t op t' h hop hs).1) hkeep
    hstart (.inr hmask)
  cases hint : c.int t.pics with
  | true =>
    obtain ⟨b, hasks, hb, -⟩ := hc.inta o₁ o₂ t.pics hready hint
    obtain rfl := ho.vector_injective (hb.symm.trans hv)
    exact absurd hasks hmasked.not_asks
  | false =>
    refine ⟨rfl, ?_⟩
    rcases (hc.inta_default o₁ o₂ t.pics hready hint).1 with hb | hb
    · exact .inl (ho.vector_injective (hv.symm.trans hb))
    · exact .inr (ho.vector_injective (hv.symm.trans hb))

/-- The keyboard and line 7 are masked, the mouse is heard, and line 6 goes down before the
processor answers. -/
def lineDrops : List PicOp :=
  [.raise 1, .mask 1, .mask 7, .raise 12, .deliver, .finish, .raise 6, .lower 6]

/-- The processor gets the vector of IRQ 7, which is masked. -/
theorem masked_never_taken_lineDrops : ∃ t,
    Run (InService.step pics8259 (.new 32 40)) InService.Possible ⟨configured, []⟩ lineDrops t ∧
      1 ∈ pics8259.irr t.pics ∧ (pics8259.inta t.pics).1 = vector 32 40 7 ∧
      pics8259.int t.pics = false ∧ (pics8259.inta t.pics).1 ≠ vector 32 40 1 := by
  have hgo : (runFrom (InService.step pics8259 (.new 32 40)) InService.Possible
      ⟨configured, []⟩ lineDrops).any (fun t => decide (1 ∈ pics8259.irr t.pics) &&
        decide ((pics8259.inta t.pics).1 = vector 32 40 7)) = true := by decide +kernel
  simp only [Option.any_eq_true, Bool.and_eq_true, decide_eq_true_eq] at hgo
  obtain ⟨t, ht, hirr, hv⟩ := hgo
  have hrun := Run.of_runFrom ht
  refine ⟨t, hrun, hirr, hv, ?_, fun heq => ?_⟩
  · exact (masked_never_taken pics8259_documented offsets_32_40 initializePics_leftOver hrun
      (by decide) hv).1
  · exact absurd (masked_never_taken pics8259_documented offsets_32_40 initializePics_leftOver hrun
      (by decide) heq).2 (by decide)

end Runs

end YontiOs.Interrupts
