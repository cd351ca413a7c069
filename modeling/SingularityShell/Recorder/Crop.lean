import Mathlib.Algebra.Ring.Parity
import Mathlib.Tactic.FieldSimp
import Mathlib.Tactic.Positivity
import SingularityShell.Lib.Rounding

/-!
# The region of a recording

A requested region is given in logical pixels. It is scaled to the pixels of the frames, and what an
encoder does not take is cut off.

## Main definitions

* `Recorder.CropBox` — how much is cut off on each side
* `Recorder.compute` — the box for a region
* `Recorder.firstPixel`, `Recorder.lastPixel` — where a scaled region starts and ends

## Main results

* `Recorder.compute_spec` — every box is legal, and it is the region or the whole frame
-/

namespace SingularityShell

namespace Recorder

open Rounding

structure CropBox where
  left : ℤ := 0
  top : ℤ := 0
  right : ℤ := 0
  bottom : ℤ := 0
  deriving DecidableEq

def CropBox.width (box : CropBox) (frameWidth : ℤ) : ℤ := frameWidth - box.left - box.right

def CropBox.height (box : CropBox) (frameHeight : ℤ) : ℤ := frameHeight - box.top - box.bottom

/-- The box of the scaled region, before its size is looked at. -/
def scaled (frameWidth frameHeight logicalWidth logicalHeight x y w h : ℤ) : CropBox :=
  if 0 < w ∧ 0 < h ∧ 0 < logicalWidth ∧ 0 < logicalHeight then
    let sx : ℚ := frameWidth / logicalWidth
    let sy : ℚ := frameHeight / logicalHeight
    let x1 := clamp ⌊x * sx⌋ 0 frameWidth
    let y1 := clamp ⌊y * sy⌋ 0 frameHeight
    let x2 := clamp ⌈((x + w : ℤ) : ℚ) * sx⌉ x1 frameWidth
    let y2 := clamp ⌈((y + h : ℤ) : ℚ) * sy⌉ y1 frameHeight
    { left := x1, top := y1, right := frameWidth - x2, bottom := frameHeight - y2 }
  else {}

/-- A size is made even at the right and at the bottom. -/
def evened (box : CropBox) (frameWidth frameHeight : ℤ) : CropBox :=
  { box with
    right := if box.width frameWidth % 2 ≠ 0 then box.right + 1 else box.right
    bottom := if box.height frameHeight % 2 ≠ 0 then box.bottom + 1 else box.bottom }

/-- `CropMath.compute`: the whole frame is kept where too little is left of a region. -/
def compute (frameWidth frameHeight logicalWidth logicalHeight x y w h : ℤ) : CropBox :=
  let box := evened (scaled frameWidth frameHeight logicalWidth logicalHeight x y w h)
    frameWidth frameHeight
  if box.width frameWidth < 2 ∨ box.height frameHeight < 2 then
    { right := frameWidth % 2, bottom := frameHeight % 2 }
  else box

/-! ### What is meant -/

/-- A region is requested. -/
def Requested (logicalWidth logicalHeight w h : ℤ) : Prop :=
  0 < w ∧ 0 < h ∧ 0 < logicalWidth ∧ 0 < logicalHeight

/-- The part of a line of pixels that lies in the frame. -/
def inFrame (frame v : ℤ) : ℤ := max 0 (min v frame)

/-- Where a scaled region starts: rounded outwards, and in the frame. -/
def firstPixel (frame logical first : ℤ) : ℤ := inFrame frame ⌊(first : ℚ) * frame / logical⌋

/-- Where a scaled region ends. -/
def lastPixel (frame logical first length : ℤ) : ℤ :=
  inFrame frame ⌈((first + length : ℤ) : ℚ) * frame / logical⌉

/-- How many pixels of a scaled region are left when an odd one is cut off. -/
def kept (frame logical first length : ℤ) : ℤ :=
  2 * ((lastPixel frame logical first length - firstPixel frame logical first) / 2)

/-- A size that an encoder takes. -/
def Legal (size : ℤ) : Prop := Even size ∧ 2 ≤ size

/-! ### One direction -/

section
variable {frame logical first length : ℤ}

theorem firstPixel_bounds (logical first : ℤ) (hframe : 0 ≤ frame) :
    0 ≤ firstPixel frame logical first ∧ firstPixel frame logical first ≤ frame := by
  rw [firstPixel, inFrame]
  omega

theorem clamp_first (hframe : 0 ≤ frame) :
    clamp ⌊(first : ℚ) * (frame / logical)⌋ 0 frame = firstPixel frame logical first := by
  rw [clamp_eq hframe, ← mul_div_assoc, firstPixel, inFrame]

/-- The end lies after the start, so that the second clamp is that of the frame. -/
theorem clamp_last (hframe : 0 ≤ frame) (hlogical : 0 < logical) (hlength : 0 < length) :
    clamp ⌈((first + length : ℤ) : ℚ) * (frame / logical)⌉ (firstPixel frame logical first) frame =
      lastPixel frame logical first length := by
  have hscale : (0 : ℚ) ≤ frame / logical :=
    div_nonneg (Int.cast_nonneg hframe) (Int.cast_nonneg hlogical.le)
  have hle : (first : ℚ) * (frame / logical) ≤ ((first + length : ℤ) : ℚ) * (frame / logical) :=
    mul_le_mul_of_nonneg_right (Int.cast_le.mpr (by omega)) hscale
  have horder := (Int.floor_le_floor hle).trans (Int.floor_le_ceil _)
  rw [clamp_eq (firstPixel_bounds logical first hframe).2, firstPixel, lastPixel, inFrame, inFrame,
    mul_div_assoc, mul_div_assoc]
  omega

theorem firstPixel_le_lastPixel (first : ℤ) (hframe : 0 ≤ frame) (hlogical : 0 < logical)
    (hlength : 0 < length) :
    firstPixel frame logical first ≤ lastPixel frame logical first length := by
  rw [← clamp_last hframe hlogical hlength]
  exact le_clamp (firstPixel_bounds logical first hframe).2

theorem lastPixel_bounds (logical first length : ℤ) (hframe : 0 ≤ frame) :
    0 ≤ lastPixel frame logical first length ∧ lastPixel frame logical first length ≤ frame := by
  rw [lastPixel, inFrame]
  omega

end

/-! ### The box -/

theorem evened_eq (box : CropBox) (frameWidth frameHeight : ℤ) :
    evened box frameWidth frameHeight =
      { box with
        right := box.right + box.width frameWidth % 2
        bottom := box.bottom + box.height frameHeight % 2 } := by
  rw [evened, CropBox.mk.injEq]
  refine ⟨rfl, rfl, ?_, ?_⟩ <;> split_ifs <;> omega

theorem scaled_of_requested {frameWidth frameHeight logicalWidth logicalHeight x y w h : ℤ}
    (hwidth : 0 ≤ frameWidth) (hheight : 0 ≤ frameHeight)
    (hreq : Requested logicalWidth logicalHeight w h) :
    scaled frameWidth frameHeight logicalWidth logicalHeight x y w h =
      { left := firstPixel frameWidth logicalWidth x
        top := firstPixel frameHeight logicalHeight y
        right := frameWidth - lastPixel frameWidth logicalWidth x w
        bottom := frameHeight - lastPixel frameHeight logicalHeight y h } := by
  obtain ⟨hw, hh, hlw, hlh⟩ := hreq
  rw [scaled, if_pos ⟨hw, hh, hlw, hlh⟩]
  simp only [clamp_first hwidth, clamp_first hheight, clamp_last hwidth hlw hw,
    clamp_last hheight hlh hh]

/-- **Every box is legal**: no side is negative, the size that is left can be encoded, and the box
is the scaled region without an odd last column or row, or the whole frame where there is no region
or too little of it. -/
theorem compute_spec {frameWidth frameHeight : ℤ} (logicalWidth logicalHeight x y w h : ℤ)
    (hwidth : 2 ≤ frameWidth) (hheight : 2 ≤ frameHeight) {box : CropBox}
    (hbox : box = compute frameWidth frameHeight logicalWidth logicalHeight x y w h) :
    (0 ≤ box.left ∧ 0 ≤ box.top ∧ 0 ≤ box.right ∧ 0 ≤ box.bottom) ∧
      Legal (box.width frameWidth) ∧ Legal (box.height frameHeight) ∧
      ((¬Requested logicalWidth logicalHeight w h ∨ kept frameWidth logicalWidth x w < 2 ∨
            kept frameHeight logicalHeight y h < 2) ∧
          box.left = 0 ∧ box.top = 0 ∧ box.right ≤ 1 ∧ box.bottom ≤ 1 ∨
        Requested logicalWidth logicalHeight w h ∧
          box.left = firstPixel frameWidth logicalWidth x ∧
          box.top = firstPixel frameHeight logicalHeight y ∧
          (lastPixel frameWidth logicalWidth x w - 1 ≤ frameWidth - box.right ∧
            frameWidth - box.right ≤ lastPixel frameWidth logicalWidth x w) ∧
          (lastPixel frameHeight logicalHeight y h - 1 ≤ frameHeight - box.bottom ∧
            frameHeight - box.bottom ≤ lastPixel frameHeight logicalHeight y h)) := by
  by_cases hreq : Requested logicalWidth logicalHeight w h
  · have hwidth₀ : 0 ≤ frameWidth := by omega
    have hheight₀ : 0 ≤ frameHeight := by omega
    have hx := firstPixel_bounds logicalWidth x hwidth₀
    have hy := firstPixel_bounds logicalHeight y hheight₀
    have hx' := lastPixel_bounds logicalWidth x w hwidth₀
    have hy' := lastPixel_bounds logicalHeight y h hheight₀
    have hxx := firstPixel_le_lastPixel x hwidth₀ hreq.2.2.1 hreq.1
    have hyy := firstPixel_le_lastPixel y hheight₀ hreq.2.2.2 hreq.2.1
    simp only [compute, evened_eq, scaled_of_requested hwidth₀ hheight₀ hreq, CropBox.width,
      CropBox.height] at hbox
    simp only [hreq, not_true, false_or, true_and, Legal, kept, Int.even_iff, CropBox.width,
      CropBox.height]
    split_ifs at hbox <;> rw [hbox] <;> dsimp only <;> omega
  · simp only [compute, evened_eq, scaled, if_neg (show ¬(0 < w ∧ 0 < h ∧ 0 < logicalWidth ∧
      0 < logicalHeight) from fun hr => hreq ⟨hr.1, hr.2.1, hr.2.2.1, hr.2.2.2⟩),
      CropBox.width, CropBox.height] at hbox
    simp only [hreq, not_false_iff, true_or, true_and, false_and, or_false, Legal, Int.even_iff,
      CropBox.width, CropBox.height]
    split_ifs at hbox <;> rw [hbox] <;> dsimp only <;> omega

theorem compute_spec_region :
    Legal ((compute 2880 1800 1440 900 100 50 301 200).width 2880) :=
  (compute_spec 1440 900 100 50 301 200 (by decide) (by decide) rfl).2.1

end Recorder

end SingularityShell
