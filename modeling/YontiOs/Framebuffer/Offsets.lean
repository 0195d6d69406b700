import YontiOs.Framebuffer.Machine
import YontiOs.Framebuffer.Pixels

/-!
# Framebuffer/Offsets — where the offset of a pixel fits `usize`

Reading and writing a pixel computes its offset in the buffer.  Where that fits `usize` the machine
does what the writer does over the natural numbers, and it overflows where it does not
(`Machine.writePixel_eq`, `Machine.readPixel_eq`).

So a write is seen in its own pixel and in no other one, exactly if pixels are apart and all their
offsets fit (`pixel_writes_local_iff`); in a mode of one or two bytes a pixel it reaches the next
ones.
-/

namespace YontiOs.Framebuffer

open Checked (Gives)

namespace FrameBufferWriter

variable {w : FrameBufferWriter} {x y : ℕ} {r g b : UInt8}

/-- The offset of a pixel, if it is on the screen, fits `usize`, with the bytes behind it. -/
def PixelFits (w : FrameBufferWriter) (x y : ℕ) : Prop :=
  w.OnScreen x y → y * w.info.stride + x < 2 ^ 64 ∧ w.offset x y + 2 < 2 ^ 64

instance (w : FrameBufferWriter) (x y : ℕ) : Decidable (w.PixelFits x y) :=
  inferInstanceAs (Decidable (_ ∧ _ → _))

theorem pixelFits_of_off (h : x ≥ w.info.width ∨ y ≥ w.info.height) :
    w.PixelFits x y := fun hon => by
  have hx := hon.1
  have hy := hon.2
  omega

/-- A pixel whose bytes are in the buffer has an offset that fits. -/
theorem Stored.pixelFits (h : w.Stored x y) (hbpp : 1 ≤ w.info.bytesPerPixel)
    (hlen : w.bufferLen < 2 ^ 64) : w.PixelFits x y := fun _ => by
  have hoffset := h.2
  have hle : y * w.info.stride + x ≤ w.offset x y := Nat.le_mul_of_pos_right _ hbpp
  omega

end FrameBufferWriter

namespace Machine

open FrameBufferWriter (PixelFits pixelFits_of_off)
open Checked (add mul fit)

variable {w : FrameBufferWriter} {x y : ℕ} {r g b : UInt8}

/-- The offset of a pixel and of its last byte, computed before what is done with them. -/
theorem offset_bind {α : Type} (f : ℕ → ℕ → Checked α) :
    (do
      let line ← mul y w.info.stride
      let pixel ← add line x
      let offset ← mul pixel w.info.bytesPerPixel
      let last ← add offset 2
      f offset last) =
      if y * w.info.stride + x < 2 ^ 64 ∧ w.offset x y + 2 < 2 ^ 64 then
        f (w.offset x y) (w.offset x y + 2)
      else .error .overflow := by
  have hoffset : w.offset x y = (y * w.info.stride + x) * w.info.bytesPerPixel := rfl
  rw [hoffset, mul, fit]
  by_cases hline : y * w.info.stride < 2 ^ 64
  · rw [if_pos hline, Checked.ok_bind, add, fit]
    by_cases hpixel : y * w.info.stride + x < 2 ^ 64
    · rw [if_pos hpixel, Checked.ok_bind, mul, fit]
      by_cases hbytes : (y * w.info.stride + x) * w.info.bytesPerPixel < 2 ^ 64
      · rw [if_pos hbytes, Checked.ok_bind, add, fit]
        by_cases hlast : (y * w.info.stride + x) * w.info.bytesPerPixel + 2 < 2 ^ 64
        · rw [if_pos hlast, if_pos ⟨hpixel, hlast⟩, Checked.ok_bind]
        · rw [if_neg hlast, if_neg fun h => hlast h.2, Checked.error_bind]
      · rw [if_neg hbytes, if_neg fun h => hbytes (by omega), Checked.error_bind]
    · rw [if_neg hpixel, if_neg fun h => hpixel h.1, Checked.error_bind]
  · rw [if_neg hline, if_neg fun h => hline (by omega), Checked.error_bind]

theorem setBytes_eq {i : ℕ} {a b c : UInt8} (hlen : i + 2 < w.bufferLen) (hfits : i + 2 < 2 ^ 64) :
    setBytes w i a b c = .ok (w.setBytes i a b c) := by
  refine Gives.eq_ok (g := True) ?_ trivial
  refine (Gives.index (if_pos (by omega))).bind ?_
  refine (Gives.add fun _ => by omega).bind ?_
  refine (Gives.index (if_pos (show i + 1 < w.bufferLen by omega))).bind ?_
  refine (Gives.add fun _ => hfits).bind ?_
  exact Gives.index (if_pos hlen)

theorem getBytes_eq {i : ℕ} (hlen : i + 2 < w.bufferLen) (hfits : i + 2 < 2 ^ 64) :
    getBytes w i = .ok (w.buffer i, w.buffer (i + 1), w.buffer (i + 2)) := by
  refine Gives.eq_ok (g := True) ?_ trivial
  refine (Gives.index (if_pos (by omega))).bind ?_
  refine (Gives.add fun _ => by omega).bind ?_
  refine (Gives.index (if_pos (by omega))).bind ?_
  refine (Gives.add fun _ => hfits).bind ?_
  exact (Gives.index (if_pos hlen)).bind (.pure _)

/-- **Writing a pixel** overflows just where its offset does. -/
theorem writePixel_eq : writePixel w x y r g b =
    if w.PixelFits x y then .ok (w.writePixel x y r g b) else .error .overflow := by
  rw [writePixel, FrameBufferWriter.writePixel]
  by_cases hoff : x ≥ w.info.width ∨ y ≥ w.info.height
  · rw [if_pos hoff, if_pos hoff, if_pos (pixelFits_of_off hoff)]
  · rw [if_neg hoff, if_neg hoff, offset_bind]
    have hon : w.OnScreen x y := ⟨by omega, by omega⟩
    simp only [PixelFits, eq_true hon, forall_const]
    split_ifs with hfits hlen
    · rfl
    · cases w.info.pixelFormat <;> exact setBytes_eq (by omega) hfits.2
    · rfl

/-- **Reading a pixel**, likewise. -/
theorem readPixel_eq : readPixel w x y =
    if w.PixelFits x y then .ok (w.readPixel x y) else .error .overflow := by
  rw [readPixel, FrameBufferWriter.readPixel]
  by_cases hoff : x ≥ w.info.width ∨ y ≥ w.info.height
  · rw [if_pos hoff, if_pos hoff, if_pos (pixelFits_of_off hoff)]
  · rw [if_neg hoff, if_neg hoff, offset_bind]
    have hon : w.OnScreen x y := ⟨by omega, by omega⟩
    simp only [PixelFits, eq_true hon, forall_const]
    split_ifs with hfits hlen
    · rfl
    · rw [getBytes_eq (by omega) hfits.2, Checked.ok_bind]
      cases w.info.pixelFormat <;> rfl
    · rfl

end Machine

namespace FrameBufferWriter

variable {w : FrameBufferWriter} {x y x' y' : ℕ}

/-- **White shows in a pixel that shares bytes** with the one that is written, in an empty
buffer. -/
theorem apart_of_local (hp : w.Stored x y) (hp' : w.Stored x' y')
    (hsame : (writePixel { w with buffer := fun _ => 0 } x y 255 255 255).readPixel x' y' =
      readPixel { w with buffer := fun _ => 0 } x' y') :
    w.offset x y + 3 ≤ w.offset x' y' ∨ w.offset x' y' + 3 ≤ w.offset x y := by
  obtain ⟨buf, heq, hwhite, -⟩ :=
    Stored.writePixel_eq (w := { w with buffer := fun _ => 0 }) (r := 255) (g := 255) (b := 255) hp
  rw [heq, Stored.readPixel_eq (w := { w with buffer := buf }) hp',
    Stored.readPixel_eq (w := { w with buffer := fun _ => 0 }) hp'] at hsame
  have hblack := (Option.some.inj hsame).trans (colorAt_eq_gray.mpr fun _ _ => rfl)
  have hoff : ∀ i < 3, ∀ j < 3, w.offset x y + i ≠ w.offset x' y' + j := by
    intro i hi j hj hij
    have hshared : buf (w.offset x y + i) = 255 := colorAt_eq_gray.mp hwhite i hi
    rw [hij] at hshared
    exact absurd (hshared.symm.trans (colorAt_eq_gray.mp hblack j hj)) (by decide)
  by_contra hnear
  rcases le_total (w.offset x y) (w.offset x' y') with hle | hle
  · exact hoff (w.offset x' y' - w.offset x y) (by omega) 0 (by decide) (by omega)
  · exact hoff 0 (by decide) (w.offset x y - w.offset x' y') (by omega) (by omega)

/-- **A write is local** in a buffer: it returns, its pixel is read back, and every other pixel is
read as before. -/
def WritesLocally (w : FrameBufferWriter) (x y : ℕ) (r g b : UInt8) : Prop :=
  ∃ w', Machine.writePixel w x y r g b = .ok w' ∧ Machine.readPixel w' x y = .ok (some (r, g, b)) ∧
    ∀ x' y', ¬ (x' = x ∧ y' = y) →
      ∃ c, Machine.readPixel w x' y' = .ok c ∧ Machine.readPixel w' x' y' = .ok c

/-- **Pixel writes are local just when pixels are apart and their offsets fit**, for every screen
with at least a byte a pixel and every buffer.  A pixel that is written is always read back; pixels
of three bytes or more are apart. -/
theorem pixel_writes_local_iff (w : FrameBufferWriter) (hbpp : 1 ≤ w.info.bytesPerPixel)
    (hlen : w.bufferLen < 2 ^ 64) :
    (∀ buf x y r g b, w.Stored x y →
      ∃ w', Machine.writePixel { w with buffer := buf } x y r g b = .ok w' ∧
        Machine.readPixel w' x y = .ok (some (r, g, b))) ∧
    ((∀ buf x y r g b, w.Stored x y → WritesLocally { w with buffer := buf } x y r g b) ↔
      w.PixelsApart ∧ ((∃ x y, w.Stored x y) → ∀ x y, w.PixelFits x y)) ∧
    (3 ≤ w.info.bytesPerPixel → w.info.width ≤ w.info.stride → w.PixelsApart) := by
  have hwrite : ∀ buf x y r g b, w.Stored x y →
      Machine.writePixel { w with buffer := buf } x y r g b =
        .ok (writePixel { w with buffer := buf } x y r g b) := fun buf x y r g b hp =>
    Machine.writePixel_eq.trans (if_pos (hp.pixelFits hbpp hlen))
  have hread : ∀ buf x y r g b, ∀ x' y', w.PixelFits x' y' →
      Machine.readPixel (writePixel { w with buffer := buf } x y r g b) x' y' =
        .ok ((writePixel { w with buffer := buf } x y r g b).readPixel x' y') := by
    intro buf x y r g b x' y' hfits
    obtain ⟨buf', hbuf'⟩ := writePixel_frame { w with buffer := buf } x y r g b
    rw [hbuf']
    exact Machine.readPixel_eq.trans (if_pos hfits)
  have hself : ∀ buf x y r g b, w.Stored x y →
      Machine.readPixel (writePixel { w with buffer := buf } x y r g b) x y =
        .ok (some (r, g, b)) := fun buf x y r g b hp =>
    (hread buf x y r g b x y (hp.pixelFits hbpp hlen)).trans
      (congrArg _ (Stored.readPixel_writePixel_self (w := { w with buffer := buf }) hp))
  refine ⟨fun buf x y r g b hp => ⟨_, hwrite buf x y r g b hp, hself buf x y r g b hp⟩,
    ⟨fun hlocal => ⟨fun x y x' y' hp hp' hne => ?_, fun ⟨x, y, hp⟩ x' y' => ?_⟩,
      fun ⟨happart, hfits⟩ buf x y r g b hp => ?_⟩, pixelsApart_of_le⟩
  · obtain ⟨w', hw', -, hother⟩ := hlocal (fun _ => 0) x y 255 255 255 hp
    obtain rfl := Except.ok.inj ((hwrite (fun _ => 0) x y 255 255 255 hp).symm.trans hw')
    obtain ⟨c, hbefore, hafter⟩ := hother x' y' hne
    have hfits := hp'.pixelFits hbpp hlen
    refine apart_of_local hp hp' (Except.ok.inj (((hread _ x y _ _ _ x' y' hfits).symm.trans
      hafter).trans (hbefore.symm.trans ?_)))
    exact Machine.readPixel_eq.trans (if_pos hfits)
  · by_cases hsame : x' = x ∧ y' = y
    · obtain ⟨rfl, rfl⟩ := hsame
      exact hp.pixelFits hbpp hlen
    · obtain ⟨w', -, -, hother⟩ := hlocal w.buffer x y 0 0 0 hp
      obtain ⟨c, hbefore, -⟩ := hother x' y' hsame
      by_contra hnot
      rw [Machine.readPixel_eq, if_neg hnot] at hbefore
      cases hbefore
  · have hfits := hfits ⟨x, y, hp⟩
    refine ⟨_, hwrite buf x y r g b hp, hself buf x y r g b hp, fun x' y' hne =>
      ⟨_, Machine.readPixel_eq.trans (if_pos (hfits x' y')), ?_⟩⟩
    rw [hread buf x y r g b x' y' (hfits x' y')]
    exact congrArg _ (PixelsApart.readPixel_writePixel_of_ne (w := { w with buffer := buf }) happart
      hne)

/-- A screen of one row of four pixels, `bytesPerPixel` bytes each. -/
def fourPixels (format : PixelFormat) (bytesPerPixel : ℕ) : FrameBufferWriter :=
  new (fun _ => 0) 12 ⟨4, 1, format, bytesPerPixel, 4⟩

theorem pixel_writes_local_iff_rgb : WritesLocally (fourPixels .rgb 3) 1 0 1 2 3 := by
  obtain ⟨-, hlocal, hapart⟩ := pixel_writes_local_iff (fourPixels .rgb 3) (by decide) (by decide)
  refine hlocal.mpr ⟨hapart (by decide) (by decide), fun _ x y hon => ?_⟩ (fun _ => 0) 1 0 1 2 3
    (by decide)
  have hx : x < 4 := hon.1
  have hy : y < 1 := hon.2
  refine ⟨show y * 4 + x < 2 ^ 64 by omega, show (y * 4 + x) * 3 + 2 < 2 ^ 64 by omega⟩

/-- **In a grey mode a write reaches the next two pixels**; and with pixels of 2⁶² bytes one that is
not written cannot be read. -/
theorem pixel_writes_spill :
    ((fourPixels .u8 1).Stored 0 0 ∧
      Machine.readPixel (fourPixels .u8 1) 1 0 = .ok (some (0, 0, 0)) ∧
      ∃ w', Machine.writePixel (fourPixels .u8 1) 0 0 1 2 3 = .ok w' ∧
        Machine.readPixel w' 1 0 = .ok (some (2, 3, 0)) ∧
        Machine.readPixel w' 2 0 = .ok (some (3, 0, 0))) ∧
    (new (fun _ => 0) 12 ⟨5, 1, .rgb, 2 ^ 62, 5⟩).Stored 0 0 ∧
      Machine.readPixel (new (fun _ => 0) 12 ⟨5, 1, .rgb, 2 ^ 62, 5⟩) 4 0 = .error .overflow := by
  refine ⟨⟨by decide, by decide, _, rfl, by decide, by decide⟩, by decide, ?_⟩
  rw [Machine.readPixel_eq]
  exact if_neg (by decide)

end FrameBufferWriter

end YontiOs.Framebuffer
