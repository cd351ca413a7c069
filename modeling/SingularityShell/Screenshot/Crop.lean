import Mathlib.Algebra.Order.Ring.Abs
import Mathlib.Data.List.Basic
import Mathlib.Tactic.Linarith
import Mathlib.Tactic.Ring
import SingularityShell.Lib.Machine

/-!
# Screenshots of a region

A region of the screen is cut out of a frame of the output it begins on. The frame may have more
pixels than the output has places, and the region is multiplied by a whole scale. Sizes are unsigned
numbers of 32 bits, and places signed ones; a sum or a product that is too large wraps around.

## Main definitions

* `Screenshot.copyFrameRegion` — which bytes of a frame are read, and where they are written
* `Screenshot.crop` — the part of `capture_region` that cuts a region out
* `Screenshot.Cropped` — the pixels that are written are those of the region
* `Screenshot.Safe` — no byte outside of the frame and of the buffer is touched

## Main results

* `Screenshot.crop_spec` — when the pixels are the right ones, and when every region is safe
-/

namespace SingularityShell

namespace Screenshot

open Machine

/-! ### The code -/

inductive Format where
  | argb8888
  | xrgb8888
  | abgr8888
  | xbgr8888
  | rgb888
  | bgr888
  | other
  deriving DecidableEq

/-- `shm_format_info` -/
def shmFormatInfo : Format → Option ℕ
  | .argb8888 | .xrgb8888 | .abgr8888 | .xbgr8888 => some 4
  | .rgb888 | .bgr888 => some 3
  | .other => none

structure Output where
  x : ℤ
  y : ℤ
  modeW : ℤ
  modeH : ℤ
  logicalW : ℤ
  logicalH : ℤ
  scale : ℤ
  xdgDone : Bool
  deriving DecidableEq

structure Frame where
  format : Format
  width : ℕ
  height : ℕ
  stride : ℕ
  /-- The flag of a frame whose rows begin at the bottom. -/
  yInvert : Bool

/-- A pixel is read at an offset of the frame, and written at one of the buffer. -/
structure Copy where
  src : ℕ
  dst : ℕ
  deriving DecidableEq

/-- `copy_frame_region_rgba`, with the copies it makes row after row. -/
def copyFrameRegion (f : Frame) (srcX srcY width height : ℕ) (yInvert : Bool) (dstStride : ℕ) :
    Option (List (List Copy)) :=
  match shmFormatInfo f.format with
  | none => none
  | some bytesPerPixel =>
    if f.stride < f.width * bytesPerPixel % 2 ^ 32 then none
    else if f.width < srcX ∨ f.height < srcY ∨ f.width - srcX < width ∨
        f.height - srcY < height then none
    else if dstStride < width * 4 % 2 ^ 32 then none
    else some ((List.range height).map fun y =>
      let readY := if yInvert then f.height - 1 - (srcY + y) else srcY + y
      (List.range width).map fun x =>
        ⟨readY * f.stride + srcX * bytesPerPixel + x * bytesPerPixel, y * dstStride + x * 4⟩)

/-- A logical size, or the size of the mode where there is none. -/
def logicalSize (o : Output) (logical mode : ℤ) : ℤ :=
  if o.xdgDone ∧ 0 < logical then logical else if 0 < o.scale then mode.tdiv o.scale else mode

/-- The first output with the origin of the region, or the first one. -/
def target (outputs : List Output) (gx gy : ℤ) : Option Output :=
  (outputs.find? fun o =>
    o.x ≤ gx ∧ gx < wrap32 (o.x + logicalSize o o.logicalW o.modeW) ∧
      o.y ≤ gy ∧ gy < wrap32 (o.y + logicalSize o o.logicalH o.modeH)).or outputs.head?

def anyScale (o : Output) (f : Frame) : ℤ :=
  if 0 < f.width ∧ 0 < o.logicalW then wrap32 (f.width / o.logicalW)
  else if 0 < o.scale then o.scale else 1

/-- `scale` -/
def wholeScale (o : Output) (f : Frame) : ℤ := if anyScale o f < 1 then 1 else anyScale o f

/-- `px` and `py`: where a direction begins. -/
def firstOf (g origin scale : ℤ) : ℕ := (wrap32 (wrap32 (g - origin) * scale)).toNat

/-- `pw` and `ph`, before they are clipped. -/
def extentOf (g scale : ℤ) : ℕ := (g * scale % 2 ^ 32).toNat

def clip (size first extent : ℕ) : ℕ :=
  if size < (first + extent) % 2 ^ 32 then (if first < size then size - first else 0) else extent

/-- The picture that is written. -/
structure Crop where
  width : ℕ
  height : ℕ
  rows : List (List Copy)
  deriving DecidableEq

/-- The end of `capture_region`, with the frame of the whole output. -/
def crop (o : Output) (f : Frame) (gx gy gw gh : ℤ) : Option Crop :=
  let scale := wholeScale o f
  let px := firstOf gx o.x scale
  let py := firstOf gy o.y scale
  let pw := clip f.width px (extentOf gw scale)
  let ph := clip f.height py (extentOf gh scale)
  if pw = 0 ∨ ph = 0 then none
  else (copyFrameRegion f px py pw ph false (pw * 4 % 2 ^ 32)).map fun rows => ⟨pw, ph, rows⟩

/-- `capture_region`, where only the capture of a whole output succeeds. -/
def captureRegion (outputs : List Output) (captureOne : Output → Frame) (gx gy gw gh : ℤ) :
    Option Crop :=
  (target outputs gx gy).bind fun o => crop o (captureOne o) gx gy gw gh

/-! ### What is meant -/

/-- Where the frame has a pixel of the screen. -/
def pixelAt (f : Frame) (bytesPerPixel x y : ℕ) : ℕ :=
  (if f.yInvert then f.height - 1 - y else y) * f.stride + x * bytesPerPixel

/-- A place of the frame is at most one pixel off the exact one, `first * size / logical`. -/
def NearFirst (size logical first : ℤ) (v : ℕ) : Prop :=
  |v * logical - first * size| ≤ logical

/-- The same for the end of the region, which is clipped to the frame. -/
def NearLast (size logical last : ℤ) (v : ℕ) : Prop :=
  |v * logical - min (size * logical) (last * size)| ≤ logical

/-- An `int32_t`. -/
def IsInt32 (v : ℤ) : Prop := -2 ^ 31 ≤ v ∧ v < 2 ^ 31

/-- The pixels that are written are those of the region, up to one at each edge. -/
def Cropped (o : Output) (f : Frame) (gx gy gw gh : ℤ) (result : Option Crop) : Prop :=
  ∃ bytesPerPixel left top right bottom,
    shmFormatInfo f.format = some bytesPerPixel ∧
    (left < right ∧ right ≤ f.width ∧ NearFirst f.width o.logicalW (gx - o.x) left ∧
      NearLast f.width o.logicalW (gx - o.x + gw) right) ∧
    (top < bottom ∧ bottom ≤ f.height ∧ NearFirst f.height o.logicalH (gy - o.y) top ∧
      NearLast f.height o.logicalH (gy - o.y + gh) bottom) ∧
    result = some
      { width := right - left
        height := bottom - top
        rows := (List.range (bottom - top)).map fun y => (List.range (right - left)).map fun x =>
          ⟨pixelAt f bytesPerPixel (left + x) (top + y), (y * (right - left) + x) * 4⟩ }

/-- Every read lies in the frame, and every write in the buffer. -/
def Safe (f : Frame) (c : Crop) : Prop :=
  ∀ row ∈ c.rows, ∀ copy ∈ row,
    (∀ bytesPerPixel, shmFormatInfo f.format = some bytesPerPixel →
      copy.src + bytesPerPixel ≤ f.stride * f.height) ∧
    copy.dst + 4 ≤ c.width * 4 % 2 ^ 32 * c.height

/-- A frame that was captured: what the protocol accepts as a buffer. -/
structure Captured (f : Frame) : Prop where
  width_pos : 0 < f.width
  height_pos : 0 < f.height
  fits : f.stride * f.height < 2 ^ 31
  rows : ∀ bytesPerPixel, shmFormatInfo f.format = some bytesPerPixel →
    f.width * bytesPerPixel ≤ f.stride
  known : ∃ bytesPerPixel, shmFormatInfo f.format = some bytesPerPixel

/-! ### The condition -/

/-- The region begins in the frame, and close enough for the whole scale. -/
def Begins (size logical scale first : ℤ) : Prop :=
  first * scale < size ∧ first * |scale * logical - size| ≤ logical

/-- The end of the region is close enough for the whole scale, or at the end of the frame. An
extent that wraps around still reaches there. -/
def Ends (size logical scale first extent : ℤ) : Prop :=
  let wrapped := extent * scale % 2 ^ 32
  0 < wrapped ∧
    (size + 2 ^ 32 < first * scale + wrapped ∨
      first * scale + wrapped < 2 ^ 32 ∧
        if extent * scale < 2 ^ 32 then
          (first + extent) * |scale * logical - size| ≤ logical ∨
            size * logical ≤ (first + extent) * min (scale * logical) size + logical
        else size ≤ first * scale + wrapped + 1)

/-- The rows of the frame begin at the bottom, and a single row is cut out where it belongs. -/
def SingleRow (size logical scale first extent : ℤ) : Prop :=
  let wrapped := extent * scale % 2 ^ 32
  first * scale < size ∧ 0 < wrapped ∧
    (size + 2 ^ 32 < first * scale + wrapped ∨ first * scale + wrapped < 2 ^ 32) ∧
    (first * scale + 1 = size ∨ wrapped = 1) ∧
    |(size - 1 - first * scale) * logical - first * size| ≤ logical ∧
    |(size - first * scale) * logical - min (size * logical) ((first + extent) * size)| ≤ logical

/-- The output has a logical size, with the same ratio to the frame in both directions, and the
region has a size and begins in the output. -/
structure Proper (o : Output) (f : Frame) (gx gy gw gh : ℤ) : Prop where
  logicalW : 0 < o.logicalW ∧ o.logicalW < 2 ^ 31
  logicalH : 0 < o.logicalH ∧ o.logicalH < 2 ^ 31
  ratio : f.width * o.logicalH = f.height * o.logicalW
  originX : 0 ≤ gx - o.x ∧ gx - o.x < o.logicalW
  originY : 0 ≤ gy - o.y ∧ gy - o.y < o.logicalH
  width : 0 < gw ∧ gw < 2 ^ 31
  height : 0 < gh ∧ gh < 2 ^ 31

/-- How many whole pixels there are for each place of the output, but one at least. -/
def wholePixels (size logical : ℤ) : ℤ := max 1 (size / logical)

/-- Both directions begin and end where they should, and the rows of the frame begin at the top, or
a single row is cut out where it belongs. -/
def Fitting (o : Output) (f : Frame) (gx gy gw gh : ℤ) : Prop :=
  let scale := wholePixels f.width o.logicalW
  (Begins f.width o.logicalW scale (gx - o.x) ∧ Ends f.width o.logicalW scale (gx - o.x) gw) ∧
  if f.yInvert then SingleRow f.height o.logicalH scale (gy - o.y) gh
  else Begins f.height o.logicalH scale (gy - o.y) ∧ Ends f.height o.logicalH scale (gy - o.y) gh

/-! ### The scale -/

theorem bytes_bounds {format : Format} {bytesPerPixel : ℕ}
    (h : shmFormatInfo format = some bytesPerPixel) : 3 ≤ bytesPerPixel ∧ bytesPerPixel ≤ 4 := by
  cases format <;> simp [shmFormatInfo] at h <;> omega

theorem Captured.bounds {f : Frame} (h : Captured f) : f.width < 2 ^ 30 ∧ f.height < 2 ^ 31 := by
  obtain ⟨bytesPerPixel, hbytes⟩ := h.known
  have hrows := h.rows bytesPerPixel hbytes
  have hthree := (bytes_bounds hbytes).1
  have hwidth : f.width * 3 ≤ f.stride := (Nat.mul_le_mul_left _ hthree).trans hrows
  have hstride := Nat.le_mul_of_pos_right f.stride h.height_pos
  have hheight := Nat.le_mul_of_pos_left f.height (show 0 < f.stride by have := h.width_pos; omega)
  have := h.fits
  omega

/-- What the scale is of a direction. -/
theorem scale_spec {size logical scale : ℤ} (hlogical : 0 < logical)
    (hscale : scale = wholePixels size logical) :
    1 ≤ scale ∧ (logical ≤ size → scale * logical ≤ size) ∧ (size < logical → scale = 1) := by
  rw [wholePixels] at hscale
  refine ⟨hscale ▸ le_max_left _ _, fun hle => ?_, fun hlt => ?_⟩
  · have hone : 1 ≤ size / logical := (Int.le_ediv_iff_mul_le hlogical).2 (by omega)
    rw [hscale, max_eq_right hone]
    exact Int.ediv_mul_le size hlogical.ne'
  · have hzero : size / logical < 1 := (Int.ediv_lt_iff_lt_mul hlogical).2 (by omega)
    rw [hscale, max_eq_left hzero.le]

theorem wholeScale_eq {o : Output} {f : Frame} (hf : Captured f) (hlogical : 0 < o.logicalW) :
    wholeScale o f = wholePixels f.width o.logicalW := by
  have hle : (f.width : ℤ) / o.logicalW ≤ f.width := Int.ediv_le_self _ (by omega)
  have hnonneg : 0 ≤ (f.width : ℤ) / o.logicalW := Int.ediv_nonneg (by omega) hlogical.le
  have := hf.bounds
  have hany : anyScale o f = f.width / o.logicalW := by
    rw [anyScale, if_pos ⟨hf.width_pos, hlogical⟩, wrap32_eq (by omega) (by omega)]
  rw [wholeScale, hany, wholePixels]
  split_ifs <;> omega

/-- The ratio is the same in both directions, and so is the scale. -/
theorem wholeScale_eq_height {o : Output} {f : Frame} (hf : Captured f)
    (hw : 0 < o.logicalW) (hh : 0 < o.logicalH)
    (hratio : f.width * o.logicalH = f.height * o.logicalW) :
    wholeScale o f = wholePixels f.height o.logicalH := by
  rw [wholeScale_eq hf hw, wholePixels, wholePixels,
    ← Int.mul_ediv_mul_of_pos_left f.width o.logicalW hh, hratio,
    mul_comm o.logicalW, Int.mul_ediv_mul_of_pos_left _ _ hw]

/-! ### One direction -/

theorem first_lt {size logical scale first : ℤ} (hsize : size < 2 ^ 31)
    (hlogical : logical < 2 ^ 31)
    (hscale : (logical ≤ size → scale * logical ≤ size) ∧ (size < logical → scale = 1))
    (hpos : 1 ≤ scale) (hfirst : 0 ≤ first) (hinside : first < logical) :
    0 ≤ first * scale ∧ first * scale < 2 ^ 31 := by
  refine ⟨mul_nonneg hfirst (by omega), ?_⟩
  rcases le_or_gt logical size with hle | hlt
  · have := mul_le_mul_of_nonneg_right hinside.le (show 0 ≤ scale by omega)
    have := hscale.1 hle
    rw [mul_comm scale] at this
    omega
  · rw [hscale.2 hlt]
    omega

theorem firstOf_eq {g origin scale : ℤ} (hlt : g - origin < 2 ^ 31) (hnonneg : 0 ≤ g - origin)
    (hfirst : 0 ≤ (g - origin) * scale ∧ (g - origin) * scale < 2 ^ 31) :
    (firstOf g origin scale : ℤ) = (g - origin) * scale := by
  rw [firstOf, wrap32_eq (by omega) hlt, wrap32_eq (by omega) hfirst.2,
    Int.toNat_of_nonneg hfirst.1]

theorem extentOf_eq (g scale : ℤ) : (extentOf g scale : ℤ) = g * scale % 2 ^ 32 :=
  Int.toNat_of_nonneg (Int.emod_nonneg _ (by norm_num))

/-- What is left of an extent lies in the frame if the sum did not wrap around into it. -/
theorem clip_fits_iff {size first extent : ℕ} (hsize : size < 2 ^ 31) (hfirst : first < 2 ^ 31)
    (hextent : extent < 2 ^ 32) :
    (clip size first extent ≠ 0 ∧ first ≤ size ∧ clip size first extent ≤ size - first) ↔
      first < size ∧ 0 < extent ∧ (size + 2 ^ 32 < first + extent ∨ first + extent < 2 ^ 32) := by
  rw [clip]
  split_ifs <;> omega

theorem add_clip {size first extent : ℕ} (hsize : size < 2 ^ 31) (hfirst : first < size)
    (hextent : extent < 2 ^ 32)
    (h : size + 2 ^ 32 < first + extent ∨ first + extent < 2 ^ 32) :
    first + clip size first extent = min size (first + extent) := by
  rw [clip]
  split_ifs <;> omega

theorem nearFirst_iff {size logical scale first : ℤ} {p : ℕ} (hp : (p : ℤ) = first * scale)
    (hfirst : 0 ≤ first) :
    NearFirst size logical first p ↔ first * |scale * logical - size| ≤ logical := by
  have heq : (p : ℤ) * logical - first * size = first * (scale * logical - size) := by
    rw [hp]
    ring
  rw [NearFirst, heq, abs_mul, abs_of_nonneg hfirst]

/-- Two places that are clipped are near each other if they are, or if both are near the end. -/
theorem abs_min_sub_min_le (a b m l : ℤ) (hl : 0 ≤ l) :
    |min m a - min m b| ≤ l ↔ |a - b| ≤ l ∨ m ≤ min a b + l := by
  rw [abs_le, abs_le]
  omega

theorem close_iff {size logical scale last : ℤ} (hlogical : 0 < logical) (hlast : 0 ≤ last) :
    |min size (last * scale) * logical - min (size * logical) (last * size)| ≤ logical ↔
      last * |scale * logical - size| ≤ logical ∨
        size * logical ≤ last * min (scale * logical) size + logical := by
  have hmin : min size (last * scale) * logical =
      min (size * logical) (last * (scale * logical)) := by
    rw [min_mul_of_nonneg _ _ hlogical.le, mul_assoc]
  have habs : last * |scale * logical - size| = |last * (scale * logical) - last * size| := by
    rw [← mul_sub, abs_mul, abs_of_nonneg hlast]
  rw [hmin, abs_min_sub_min_le _ _ _ _ hlogical.le, habs, mul_min_of_nonneg _ _ hlast]

/-- **The end of a direction.** The condition says when the extent is positive, does not wrap around
into the frame, and ends near the exact place. -/
theorem ends_iff {size logical scale first extent : ℤ} (hsize : 0 ≤ size) (hsize' : size < 2 ^ 31)
    (hlogical : 0 < logical) (hlogical' : logical < 2 ^ 31)
    (hscale : (logical ≤ size → scale * logical ≤ size) ∧ (size < logical → scale = 1))
    (hpos : 1 ≤ scale) (hfirst : 0 ≤ first) (hinside : first < logical) (hextent : 0 < extent)
    (hextent' : extent < 2 ^ 31) {e : ℕ}
    (he : (e : ℤ) = min size (first * scale + extent * scale % 2 ^ 32)) :
    Ends size logical scale first extent ↔
      0 < extent * scale % 2 ^ 32 ∧ (size + 2 ^ 32 < first * scale + extent * scale % 2 ^ 32 ∨
        first * scale + extent * scale % 2 ^ 32 < 2 ^ 32) ∧
        NearLast size logical (first + extent) e := by
  have hlast : 0 ≤ first + extent := by omega
  have hsum : (first + extent) * scale = first * scale + extent * scale := add_mul _ _ _
  have hfirst' : 0 ≤ first * scale := mul_nonneg hfirst (by omega)
  have hextent'' : 0 ≤ extent * scale := mul_nonneg hextent.le (by omega)
  -- an end that is so large lies behind the frame
  have hbehind : 2 ^ 32 ≤ (first + extent) * scale →
      min (size * logical) ((first + extent) * size) = size * logical := by
    intro hlarge
    have hle : logical ≤ size := by
      by_contra hlt
      rw [hscale.2 (by omega)] at hlarge
      omega
    refine min_eq_left ?_
    calc size * logical ≤ (first + extent) * scale * logical :=
          mul_le_mul_of_nonneg_right (by omega) hlogical.le
      _ = (first + extent) * (scale * logical) := mul_assoc _ _ _
      _ ≤ (first + extent) * size := mul_le_mul_of_nonneg_left (hscale.1 hle) hlast
  have hfar : size + 2 ^ 32 < first * scale + extent * scale % 2 ^ 32 →
      NearLast size logical (first + extent) e := by
    intro hfar
    have hle : extent * scale % 2 ^ 32 ≤ extent * scale := by omega
    rw [NearLast, he, hbehind (by omega), min_eq_left (by omega), sub_self, abs_zero]
    exact hlogical.le
  have hnear : first * scale + extent * scale % 2 ^ 32 < 2 ^ 32 →
      (NearLast size logical (first + extent) e ↔
        if extent * scale < 2 ^ 32 then
          (first + extent) * |scale * logical - size| ≤ logical ∨
            size * logical ≤ (first + extent) * min (scale * logical) size + logical
        else size ≤ first * scale + extent * scale % 2 ^ 32 + 1) := by
    intro hlt
    rw [NearLast, he]
    split_ifs with hsmall
    · rw [Int.emod_eq_of_lt hextent'' hsmall, ← hsum]
      exact close_iff hlogical hlast
    · rw [hbehind (by omega), ← sub_mul, abs_mul, abs_of_pos hlogical,
        mul_le_iff_le_one_left hlogical, abs_le]
      omega
  rw [Ends]
  refine and_congr_right fun _ => ⟨?_, ?_⟩
  · rintro (h | ⟨hlt, hclose⟩)
    · exact ⟨.inl h, hfar h⟩
    · exact ⟨.inr hlt, (hnear hlt).2 hclose⟩
  · rintro ⟨h | hlt, hclose⟩
    · exact .inl h
    · exact .inr ⟨hlt, (hnear hlt).1 hclose⟩

/-! ### The pixels -/

/-- What `copyFrameRegion` checks, and what it copies. -/
theorem copyFrameRegion_eq_some_iff {f : Frame} {x y width height dstStride : ℕ}
    {rows : List (List Copy)} : copyFrameRegion f x y width height false dstStride = some rows ↔
      ∃ bytesPerPixel, shmFormatInfo f.format = some bytesPerPixel ∧
        f.width * bytesPerPixel % 2 ^ 32 ≤ f.stride ∧
        ((x ≤ f.width ∧ width ≤ f.width - x) ∧ y ≤ f.height ∧ height ≤ f.height - y) ∧
        width * 4 % 2 ^ 32 ≤ dstStride ∧
        rows = (List.range height).map fun j => (List.range width).map fun i =>
          ⟨(y + j) * f.stride + x * bytesPerPixel + i * bytesPerPixel, j * dstStride + i * 4⟩ := by
  rw [copyFrameRegion]
  cases hbytes : shmFormatInfo f.format with
  | none => exact iff_of_false nofun fun ⟨_, h, _⟩ => nomatch h
  | some bytesPerPixel =>
    simp only [Bool.false_eq_true, if_false, Option.some.injEq, exists_eq_left']
    split_ifs with hstride hfits hdst
    · exact iff_of_false nofun fun h => by omega
    · exact iff_of_false nofun fun h => by omega
    · exact iff_of_false nofun fun h => by omega
    · rw [Option.some.injEq, eq_comm]
      exact ⟨fun h => ⟨by omega, by omega, by omega, h⟩, fun h => h.2.2.2⟩

/-- What is copied of a captured frame. -/
theorem copyFrameRegion_eq {f : Frame} (hf : Captured f) {bytesPerPixel : ℕ}
    (hbytes : shmFormatInfo f.format = some bytesPerPixel) (x y width height : ℕ) :
    copyFrameRegion f x y width height false (width * 4 % 2 ^ 32) =
      if (x ≤ f.width ∧ width ≤ f.width - x) ∧ y ≤ f.height ∧ height ≤ f.height - y then
        some ((List.range height).map fun j => (List.range width).map fun i =>
          ⟨(y + j) * f.stride + x * bytesPerPixel + i * bytesPerPixel, (j * width + i) * 4⟩)
      else none := by
  have hsmall := hf.bounds.1
  split_ifs with hfits
  · refine copyFrameRegion_eq_some_iff.2 ⟨bytesPerPixel, hbytes,
      (Nat.mod_le _ _).trans (hf.rows _ hbytes), hfits, le_refl _, ?_⟩
    refine List.map_congr_left fun j _ => List.map_congr_left fun i _ => ?_
    rw [Copy.mk.injEq, Nat.mod_eq_of_lt (show width * 4 < 2 ^ 32 by omega)]
    exact ⟨rfl, by ring⟩
  · rw [Option.eq_none_iff_forall_not_mem]
    intro rows hrows
    obtain ⟨_, _, _, hfits', _⟩ := copyFrameRegion_eq_some_iff.1 hrows
    exact hfits hfits'

/-- Two pixels of a frame that lie at one offset are the same. -/
theorem offset_injective {stride bytesPerPixel width x y x' y' : ℕ}
    (hrows : width * bytesPerPixel ≤ stride) (hbytes : 0 < bytesPerPixel) (hx : x < width)
    (hx' : x' < width)
    (heq : y * stride + x * bytesPerPixel = y' * stride + x' * bytesPerPixel) :
    x = x' ∧ y = y' := by
  have hlt : ∀ {v}, v < width → v * bytesPerPixel < stride := fun hv =>
    (Nat.mul_lt_mul_of_pos_right hv hbytes).trans_le hrows
  have hstride : 0 < stride := (Nat.zero_le _).trans_lt (hlt hx)
  have hdiv : ∀ {v w}, v < width → (w * stride + v * bytesPerPixel) / stride = w := fun hv => by
    rw [mul_comm, Nat.mul_add_div hstride, Nat.div_eq_of_lt (hlt hv), add_zero]
  have hy : y = y' := by rw [← hdiv (w := y) hx, heq, hdiv hx']
  subst hy
  exact ⟨Nat.eq_of_mul_eq_mul_right hbytes (Nat.add_left_cancel heq), rfl⟩

/-- The rows that are written are the same when every copy is. -/
theorem rows_inj {width height : ℕ} {f g : ℕ → ℕ → Copy} :
    ((List.range height).map fun y => (List.range width).map (f y)) =
      ((List.range height).map fun y => (List.range width).map (g y)) ↔
        ∀ y < height, ∀ x < width, f y x = g y x := by
  simp only [List.map_inj_left, List.mem_range]

/-- What is cut out of a captured frame. -/
theorem crop_eq (o : Output) {f : Frame} (hf : Captured f) {bytesPerPixel : ℕ}
    (hbytes : shmFormatInfo f.format = some bytesPerPixel) (gx gy gw gh : ℤ) :
    let px := firstOf gx o.x (wholeScale o f)
    let py := firstOf gy o.y (wholeScale o f)
    let pw := clip f.width px (extentOf gw (wholeScale o f))
    let ph := clip f.height py (extentOf gh (wholeScale o f))
    crop o f gx gy gw gh =
      if (pw ≠ 0 ∧ px ≤ f.width ∧ pw ≤ f.width - px) ∧
          ph ≠ 0 ∧ py ≤ f.height ∧ ph ≤ f.height - py then
        some ⟨pw, ph, (List.range ph).map fun j => (List.range pw).map fun i =>
          ⟨(py + j) * f.stride + px * bytesPerPixel + i * bytesPerPixel, (j * pw + i) * 4⟩⟩
      else none := by
  intro px py pw ph
  show (if pw = 0 ∨ ph = 0 then none
    else (copyFrameRegion f px py pw ph false (pw * 4 % 2 ^ 32)).map
      fun rows => (⟨pw, ph, rows⟩ : Crop)) = _
  rw [copyFrameRegion_eq hf hbytes]
  split_ifs with hzero hfits hfits hfits hfits
  · omega
  · rfl
  · rfl
  · omega
  · omega
  · rfl

section
variable {size : ℕ} {logical scale first extent : ℤ} (hsize : size < 2 ^ 31)
  (hlogical : 0 < logical) (hlogical' : logical < 2 ^ 31)
  (hscale : (logical ≤ size → scale * logical ≤ size) ∧ (size < logical → scale = 1))
  (hpos : 1 ≤ scale) (hfirst : 0 ≤ first) (hinside : first < logical) (hextent : 0 < extent)
  (hextent' : extent < 2 ^ 31) {p w : ℕ} (hp : (p : ℤ) = first * scale)
  (hw : (w : ℤ) = extent * scale % 2 ^ 32)
include hsize hlogical hlogical' hscale hpos hfirst hinside hextent hextent' hp hw

/-- **One direction**: what is cut out lies in the frame and is near the exact part. -/
theorem axis_iff :
    (clip size p w ≠ 0 ∧ p ≤ size ∧ clip size p w ≤ size - p) ∧
        NearFirst size logical first p ∧
        NearLast size logical (first + extent) (p + clip size p w) ↔
      Begins size logical scale first ∧ Ends size logical scale first extent := by
  have hpw : p < 2 ^ 31 ∧ w < 2 ^ 32 := by
    have := first_lt (by exact_mod_cast hsize) hlogical' hscale hpos hfirst hinside
    omega
  rw [clip_fits_iff hsize hpw.1 hpw.2, nearFirst_iff hp hfirst, Begins, ← hp]
  constructor
  · rintro ⟨⟨hlt, hpositive, hwrap⟩, hnear, hlast⟩
    have hadd := add_clip hsize hlt hpw.2 hwrap
    refine ⟨⟨by exact_mod_cast hlt, hnear⟩, (ends_iff (by omega) (by exact_mod_cast hsize) hlogical
      hlogical' hscale hpos hfirst hinside hextent hextent' (e := p + clip size p w) (by omega)).2
      ⟨by omega, by omega, hlast⟩⟩
  · rintro ⟨⟨hlt, hnear⟩, hends⟩
    have hlt' : p < size := by exact_mod_cast hlt
    have hcond := hends
    rw [Ends] at hcond
    have hwrap : size + 2 ^ 32 < p + w ∨ p + w < 2 ^ 32 := by omega
    have hadd := add_clip hsize hlt' hpw.2 hwrap
    obtain ⟨hpositive, -, hlast⟩ := (ends_iff (by omega) (by exact_mod_cast hsize) hlogical
      hlogical' hscale hpos hfirst hinside hextent hextent' (e := p + clip size p w) (by omega)).1
      hends
    exact ⟨⟨hlt', by omega, hwrap⟩, hnear, hlast⟩

omit hlogical hextent hextent' in
/-- The same where the rows of the frame begin at the bottom. -/
theorem singleRow_iff :
    ((clip size p w ≠ 0 ∧ p ≤ size ∧ clip size p w ≤ size - p) ∧
        ∃ top, (∀ y < clip size p w, p + y = size - 1 - (top + y)) ∧ top + clip size p w ≤ size ∧
          NearFirst size logical first top ∧
          NearLast size logical (first + extent) (top + clip size p w)) ↔
      SingleRow size logical scale first extent := by
  have hpw : p < 2 ^ 31 ∧ w < 2 ^ 32 := by
    have := first_lt (by exact_mod_cast hsize) hlogical' hscale hpos hfirst hinside
    omega
  rw [clip_fits_iff hsize hpw.1 hpw.2, SingleRow, ← hp, ← hw]
  constructor
  · rintro ⟨⟨hlt, hpositive, hwrap⟩, top, hrows, htop, hnear, hlast⟩
    have hadd := add_clip hsize hlt hpw.2 hwrap
    have hfirstRow := hrows 0 (by omega)
    -- two rows would come in the wrong order
    have hone : clip size p w = 1 := by
      by_contra hne
      have := hrows 1 (by omega)
      omega
    rw [hone] at hadd hlast
    have hcast : (top : ℤ) = size - 1 - p := by omega
    have hcast' : ((top + 1 : ℕ) : ℤ) = size - p := by omega
    rw [NearFirst, hcast] at hnear
    rw [NearLast, hcast'] at hlast
    exact ⟨by omega, by omega, by omega, by omega, hnear, hlast⟩
  · rintro ⟨hlt, hpositive, hwrap, hrow, hnear, hlast⟩
    have hadd := add_clip hsize (by omega) hpw.2
      (show size + 2 ^ 32 < p + w ∨ p + w < 2 ^ 32 by omega)
    have hone : clip size p w = 1 := by omega
    refine ⟨⟨by omega, by omega, by omega⟩, size - 1 - p, fun y hy => by omega, by omega, ?_, ?_⟩
    · rwa [NearFirst, show ((size - 1 - p : ℕ) : ℤ) = size - 1 - p by omega]
    · rwa [NearLast, hone, show ((size - 1 - p + 1 : ℕ) : ℤ) = size - p by omega]
end

/-- Where the pixels of a region come from: from the left edge on, and from rows of the frame that
are the region's. -/
theorem rows_eq_iff {f : Frame} (hf : Captured f) {bytesPerPixel : ℕ}
    (hbytes : shmFormatInfo f.format = some bytesPerPixel) {px py pw ph left top : ℕ}
    (hpw : pw ≠ 0) (hph : ph ≠ 0) (hpx : px + pw ≤ f.width) (hleft : left + pw ≤ f.width) :
    (List.range ph).map (fun j => (List.range pw).map fun i => (⟨(py + j) * f.stride +
        px * bytesPerPixel + i * bytesPerPixel, (j * pw + i) * 4⟩ : Copy)) =
      (List.range ph).map (fun j => (List.range pw).map fun i =>
        ⟨pixelAt f bytesPerPixel (left + i) (top + j), (j * pw + i) * 4⟩) ↔
      px = left ∧ ∀ j < ph, py + j = if f.yInvert then f.height - 1 - (top + j) else top + j := by
  have hthree := (bytes_bounds hbytes).1
  rw [rows_inj]
  constructor
  · intro h
    have hsrc : ∀ j < ph, px = left ∧
        py + j = if f.yInvert then f.height - 1 - (top + j) else top + j := by
      intro j hj
      have hcopy := congrArg Copy.src (h j hj 0 (Nat.pos_of_ne_zero hpw))
      dsimp only [pixelAt] at hcopy
      rw [zero_mul, add_zero, add_zero] at hcopy
      exact offset_injective (hf.rows _ hbytes) (by omega) (by omega) (by omega) hcopy
    exact ⟨(hsrc 0 (Nat.pos_of_ne_zero hph)).1, fun j hj => (hsrc j hj).2⟩
  · rintro ⟨rfl, hrows⟩ j hj i _
    rw [Copy.mk.injEq, pixelAt, ← hrows j hj]
    exact ⟨by ring, rfl⟩

/-- **The pixels are the right ones exactly when the region is fitting.** -/
theorem cropped_iff {o : Output} {f : Frame} (hf : Captured f) {gx gy gw gh : ℤ}
    (h : Proper o f gx gy gw gh) :
    Cropped o f gx gy gw gh (crop o f gx gy gw gh) ↔ Fitting o f gx gy gw gh := by
  obtain ⟨bytesPerPixel, hbytes⟩ := hf.known
  obtain ⟨hpos, hscaleW⟩ := scale_spec h.logicalW.1 (wholeScale_eq hf h.logicalW.1)
  obtain ⟨-, hscaleH⟩ := scale_spec h.logicalH.1
    (wholeScale_eq_height hf h.logicalW.1 h.logicalH.1 h.ratio)
  have hsizes := hf.bounds
  have hpx := firstOf_eq (h.originX.2.trans h.logicalW.2) h.originX.1
    (first_lt (by omega) h.logicalW.2 hscaleW hpos h.originX.1 h.originX.2)
  have hpy := firstOf_eq (h.originY.2.trans h.logicalH.2) h.originY.1
    (first_lt (by omega) h.logicalH.2 hscaleH hpos h.originY.1 h.originY.2)
  have hhorizontal := axis_iff (by omega) h.logicalW.1 h.logicalW.2 hscaleW hpos h.originX.1
    h.originX.2 h.width.1 h.width.2 hpx (extentOf_eq gw (wholeScale o f))
  have hcrop := crop_eq o hf hbytes gx gy gw gh
  set px := firstOf gx o.x (wholeScale o f)
  set py := firstOf gy o.y (wholeScale o f)
  set pw := clip f.width px (extentOf gw (wholeScale o f))
  set ph := clip f.height py (extentOf gh (wholeScale o f))
  dsimp only at hcrop
  -- the picture is that of the region exactly when both directions are
  have hsplit : Cropped o f gx gy gw gh (crop o f gx gy gw gh) ↔
      ((pw ≠ 0 ∧ px ≤ f.width ∧ pw ≤ f.width - px) ∧
        NearFirst f.width o.logicalW (gx - o.x) px ∧
        NearLast f.width o.logicalW (gx - o.x + gw) (px + pw)) ∧
      (ph ≠ 0 ∧ py ≤ f.height ∧ ph ≤ f.height - py) ∧ ∃ top,
        (∀ j < ph, py + j = if f.yInvert then f.height - 1 - (top + j) else top + j) ∧
        top + ph ≤ f.height ∧ NearFirst f.height o.logicalH (gy - o.y) top ∧
        NearLast f.height o.logicalH (gy - o.y + gh) (top + ph) := by
    rw [hcrop]
    constructor
    · rintro ⟨b, left, top, right, bottom, hb, ⟨hlr, hright, hfirst, hlast⟩,
        ⟨htb, hbottom, hfirst', hlast'⟩, heq⟩
      obtain rfl : bytesPerPixel = b := Option.some.inj (hbytes.symm.trans hb)
      split_ifs at heq with hfits
      rw [Option.some.injEq, Crop.mk.injEq] at heq
      obtain ⟨hwidth, hheight, hrows⟩ := heq
      rw [← hwidth, ← hheight] at hrows
      obtain ⟨rfl, hrow⟩ :=
        (rows_eq_iff hf hbytes hfits.1.1 hfits.2.1 (by omega) (by omega)).1 hrows
      obtain rfl : right = px + pw := by omega
      obtain rfl : bottom = top + ph := by omega
      exact ⟨⟨hfits.1, hfirst, hlast⟩, hfits.2, top, hrow, hbottom, hfirst', hlast'⟩
    · rintro ⟨⟨hfits, hfirst, hlast⟩, hfits', top, hrow, hbottom, hfirst', hlast'⟩
      refine ⟨bytesPerPixel, px, top, px + pw, top + ph, hbytes,
        ⟨by omega, by omega, hfirst, hlast⟩, ⟨by omega, hbottom, hfirst', hlast'⟩, ?_⟩
      rw [if_pos ⟨hfits, hfits'⟩, Option.some.injEq, Crop.mk.injEq, Nat.add_sub_cancel_left,
        Nat.add_sub_cancel_left]
      exact ⟨rfl, rfl, (rows_eq_iff hf hbytes hfits.1 hfits'.1 (by omega) (by omega)).2 ⟨rfl, hrow⟩⟩
  rw [hsplit, hhorizontal, Fitting, ← wholeScale_eq hf h.logicalW.1]
  refine and_congr_right fun _ => ?_
  split_ifs with hinvert
  · exact singleRow_iff (by omega) h.logicalH.2 hscaleH hpos h.originY.1 h.originY.2 hpy
      (extentOf_eq gh (wholeScale o f))
  · rw [← axis_iff (by omega) h.logicalH.1 h.logicalH.2 hscaleH hpos h.originY.1 h.originY.2
      h.height.1 h.height.2 hpy (extentOf_eq gh (wholeScale o f))]
    refine and_congr_right fun hfits => ⟨?_, fun hnear => ⟨py, fun _ _ => rfl, by omega, hnear⟩⟩
    rintro ⟨top, hrow, -, hnear⟩
    obtain rfl : py = top := hrow 0 (Nat.pos_of_ne_zero hfits.1)
    exact hnear

/-! ### The bytes -/

theorem one_le_wholeScale (o : Output) (f : Frame) : 1 ≤ wholeScale o f := by
  rw [wholeScale]
  split_ifs <;> omega

theorem wholeScale_lt {o : Output} (f : Frame) (ho : o.scale < 2 ^ 31) :
    wholeScale o f < 2 ^ 31 := by
  have hany : anyScale o f < 2 ^ 31 := by
    rw [anyScale]
    split_ifs
    · exact (wrap32_bounds _).2
    · exact ho
    · norm_num
  rw [wholeScale]
  split_ifs <;> omega

/-- Where the sizes do not wrap around, no region leads out of the frame or the buffer. -/
theorem safe_of_small {o : Output} {f : Frame} (hwidth : f.width < 2 ^ 30) {gx gy gw gh : ℤ}
    {c : Crop} (hc : crop o f gx gy gw gh = some c) : Safe f c := by
  rw [crop] at hc
  split_ifs at hc
  obtain ⟨rows, hrows, rfl⟩ := Option.map_eq_some_iff.1 hc
  obtain ⟨bytesPerPixel, hbytes, hstride, hfits, -, rfl⟩ := copyFrameRegion_eq_some_iff.1 hrows
  generalize clip f.width _ _ = pw at *
  generalize clip f.height _ _ = ph at *
  generalize firstOf gx _ _ = px at *
  generalize firstOf gy _ _ = py at *
  have hfour : f.width * bytesPerPixel < 2 ^ 32 :=
    (Nat.mul_le_mul_left _ (bytes_bounds hbytes).2).trans_lt (by omega)
  rw [Nat.mod_eq_of_lt hfour] at hstride
  intro row hrow copy hcopy
  obtain ⟨y, hy, rfl⟩ := List.mem_map.1 hrow
  obtain ⟨x, hx, rfl⟩ := List.mem_map.1 hcopy
  rw [List.mem_range] at hx hy
  dsimp only
  constructor
  · intro b hb
    obtain rfl : bytesPerPixel = b := Option.some.inj (hbytes.symm.trans hb)
    calc (py + y) * f.stride + px * bytesPerPixel + x * bytesPerPixel + bytesPerPixel
        = (py + y) * f.stride + (px + x + 1) * bytesPerPixel := by ring
      _ ≤ (py + y) * f.stride + f.width * bytesPerPixel :=
        Nat.add_le_add_left (Nat.mul_le_mul_right _ (by omega)) _
      _ ≤ (py + y) * f.stride + f.stride := Nat.add_le_add_left hstride _
      _ = (py + y + 1) * f.stride := by ring
      _ ≤ f.height * f.stride := Nat.mul_le_mul_right _ (by omega)
      _ = f.stride * f.height := mul_comm _ _
  · rw [Nat.mod_eq_of_lt (show pw * 4 < 2 ^ 32 by omega)]
    calc y * (pw * 4) + x * 4 + 4 = y * (pw * 4) + (x + 1) * 4 := by ring
      _ ≤ y * (pw * 4) + pw * 4 := Nat.add_le_add_left (Nat.mul_le_mul_right _ (by omega)) _
      _ = (y + 1) * (pw * 4) := by ring
      _ ≤ ph * (pw * 4) := Nat.mul_le_mul_right _ (by omega)
      _ = pw * 4 * ph := mul_comm _ _

/-- Where a frame is so wide that the size of a row wraps around, some region leads out of the
buffer, unless the frame is turned down. -/
theorem exists_unsafe {o : Output} {f : Frame} (ho : o.scale < 2 ^ 31) (hwidth : 2 ^ 30 ≤ f.width)
    (hwidth' : f.width < 2 ^ 32) (hheight : 0 < f.height) (hheight' : f.height < 2 ^ 32)
    {bytesPerPixel : ℕ} (hbytes : shmFormatInfo f.format = some bytesPerPixel)
    (hstride : f.width * bytesPerPixel % 2 ^ 32 ≤ f.stride) :
    ∃ gw : ℤ, 0 < gw ∧ gw ≤ 2 ^ 30 ∧ ∃ c, crop o f o.x o.y gw 1 = some c ∧ ¬Safe f c := by
  have hone := one_le_wholeScale o f
  have hlt := wholeScale_lt f ho
  -- so many logical pixels that their scaled width is at least `2 ^ 30`
  obtain ⟨gw, hgw⟩ : ∃ gw, gw = (2 ^ 30 + wholeScale o f - 1) / wholeScale o f := ⟨_, rfl⟩
  have hge : 2 ^ 30 ≤ gw * wholeScale o f := by
    have := Int.lt_ediv_add_one_mul_self (2 ^ 30 + wholeScale o f - 1)
      (show 0 < wholeScale o f by omega)
    rw [← hgw, add_mul, one_mul] at this
    omega
  have hle : gw * wholeScale o f ≤ 2 ^ 30 + wholeScale o f - 1 :=
    hgw ▸ Int.ediv_mul_le _ (by omega)
  have hpos : 0 < gw := by
    by_contra hneg
    have := mul_nonpos_of_nonpos_of_nonneg (not_lt.1 hneg) (show 0 ≤ wholeScale o f by omega)
    omega
  have hgw' : gw ≤ 2 ^ 30 := by
    refine hgw ▸ Int.ediv_le_of_le_mul (by omega) ?_
    have := mul_le_mul_of_nonneg_left hone (show (0 : ℤ) ≤ 2 ^ 30 - 1 by norm_num)
    rw [show (2 : ℤ) ^ 30 * wholeScale o f = (2 ^ 30 - 1) * wholeScale o f + wholeScale o f by ring]
    omega
  have hfirst : ∀ v, firstOf v v (wholeScale o f) = 0 := by
    intro v
    rw [firstOf, sub_self, wrap32_zero, zero_mul, wrap32_zero, Int.toNat_zero]
  have hextent := extentOf_eq gw (wholeScale o f)
  rw [Int.emod_eq_of_lt (by omega) (by omega)] at hextent
  have hextent' := extentOf_eq 1 (wholeScale o f)
  rw [one_mul, Int.emod_eq_of_lt (by omega) (by omega)] at hextent'
  obtain ⟨pw, hpw, hpw'⟩ : ∃ pw, clip f.width 0 (extentOf gw (wholeScale o f)) = pw ∧
      2 ^ 30 ≤ pw ∧ pw ≤ f.width := by
    refine ⟨_, rfl, ?_⟩
    rw [clip]
    split_ifs <;> omega
  obtain ⟨ph, hph, hph'⟩ : ∃ ph, clip f.height 0 (extentOf 1 (wholeScale o f)) = ph ∧
      0 < ph ∧ ph ≤ f.height := by
    refine ⟨_, rfl, ?_⟩
    rw [clip]
    split_ifs <;> omega
  have hcopies : copyFrameRegion f 0 0 pw ph false (pw * 4 % 2 ^ 32) = some _ :=
    copyFrameRegion_eq_some_iff.2 ⟨bytesPerPixel, hbytes, hstride, by omega, le_refl _, rfl⟩
  have hcrop : crop o f o.x o.y gw 1 = (copyFrameRegion f 0 0 pw ph false (pw * 4 % 2 ^ 32)).map
      fun rows => (⟨pw, ph, rows⟩ : Crop) := by
    rw [crop, hfirst, hfirst, hpw, hph, if_neg (by omega)]
  rw [hcopies, Option.map_some] at hcrop
  refine ⟨gw, hpos, hgw', _, hcrop, fun hsafe => ?_⟩
  -- the last pixel of the last row
  have hlast := (hsafe _ (List.mem_map_of_mem (List.mem_range.2 (show ph - 1 < ph by omega))) _
    (List.mem_map_of_mem (List.mem_range.2 (show pw - 1 < pw by omega)))).2
  dsimp only at hlast
  have hrow : pw * 4 % 2 ^ 32 * ph = (ph - 1) * (pw * 4 % 2 ^ 32) + pw * 4 % 2 ^ 32 := by
    rw [mul_comm, ← Nat.succ_mul, Nat.succ_eq_add_one, Nat.sub_add_cancel hph'.1]
  rw [hrow] at hlast
  omega

/-- **Screenshots of a region.** The pixels of a region that begins in the output are the right ones
exactly when the region is fitting, and every region at all is safe exactly when a row of the frame
is less than `2 ^ 30` pixels long, or the frame is turned down. -/
theorem captureRegion_spec (outputs : List Output) (captureOne : Output → Frame) {o : Output}
    (ho : IsInt32 o.x ∧ IsInt32 o.y ∧ IsInt32 o.scale) :
    (Captured (captureOne o) → ∀ gx gy gw gh, target outputs gx gy = some o →
      Proper o (captureOne o) gx gy gw gh →
        (Cropped o (captureOne o) gx gy gw gh (captureRegion outputs captureOne gx gy gw gh) ↔
          Fitting o (captureOne o) gx gy gw gh)) ∧
    ((captureOne o).width < 2 ^ 32 → 0 < (captureOne o).height → (captureOne o).height < 2 ^ 32 →
      ∀ bytesPerPixel, shmFormatInfo (captureOne o).format = some bytesPerPixel →
        ((∀ gx gy gw gh, IsInt32 gx → IsInt32 gy → IsInt32 gw → IsInt32 gh →
            ∀ c, crop o (captureOne o) gx gy gw gh = some c → Safe (captureOne o) c) ↔
          (captureOne o).width < 2 ^ 30 ∨
            (captureOne o).stride < (captureOne o).width * bytesPerPixel % 2 ^ 32)) := by
  constructor
  · intro hf gx gy gw gh htarget hproper
    rw [captureRegion, htarget, Option.bind_some]
    exact cropped_iff hf hproper
  · intro hwidth hheight hheight' bytesPerPixel hbytes
    constructor
    · intro hsafe
      by_contra! hwide
      obtain ⟨gw, hpos, hle, c, hc, hunsafe⟩ := exists_unsafe ho.2.2.2 hwide.1 hwidth hheight
        hheight' hbytes hwide.2
      exact hunsafe (hsafe _ _ _ _ ho.1 ho.2.1 ⟨by omega, by omega⟩ ⟨by norm_num, by norm_num⟩ c hc)
    · rintro (hsmall | hstride) gx gy gw gh - - - - c hc
      · exact safe_of_small hsmall hc
      · rw [crop] at hc
        split_ifs at hc
        obtain ⟨rows, hrows, -⟩ := Option.map_eq_some_iff.1 hc
        obtain ⟨b, hb, hle, -⟩ := copyFrameRegion_eq_some_iff.1 hrows
        obtain rfl : bytesPerPixel = b := Option.some.inj (hbytes.symm.trans hb)
        omega

/-! ### Two outputs -/

/-- An output of which each place is two pixels wide and high. -/
def doubled : Output := ⟨0, 0, 8, 4, 4, 2, 2, true⟩

def doubledFrame : Frame := ⟨.xrgb8888, 8, 4, 32, false⟩

/-- A region of an output with a whole scale. -/
theorem captureRegion_doubled :
    Cropped doubled doubledFrame 1 1 2 1
      (captureRegion [doubled] (fun _ => doubledFrame) 1 1 2 1) :=
  ((captureRegion_spec [doubled] (fun _ => doubledFrame) (o := doubled) (by
      simp only [IsInt32, doubled]
      norm_num)).1
    ⟨by decide, by decide, by decide, by decide, ⟨4, rfl⟩⟩ 1 1 2 1 (by decide +kernel)
    ⟨by decide, by decide, by decide, by decide, by decide, by decide, by decide⟩).2
    (by
      have hscale : wholePixels doubledFrame.width doubled.logicalW = 2 := by decide +kernel
      rw [Fitting, hscale]
      exact ⟨⟨⟨by decide, by decide⟩, by decide, .inr ⟨by decide, .inl (by decide)⟩⟩,
        ⟨by decide, by decide⟩, by decide, .inr ⟨by decide, .inl (by decide)⟩⟩)

/-- An output that is scaled by one and a half. -/
def fractional : Output := ⟨0, 0, 2880, 1800, 1920, 1200, 2, true⟩

def fractionalFrame : Frame := ⟨.xrgb8888, 2880, 1800, 11520, false⟩

/-- The whole scale is one, and the picture is too small. -/
theorem not_cropped_fractional :
    ¬Cropped fractional fractionalFrame 100 100 8 8
      (captureRegion [fractional] (fun _ => fractionalFrame) 100 100 8 8) := by
  have hwidth : (captureRegion [fractional] (fun _ => fractionalFrame) 100 100 8 8).map
      (·.width) = some 8 := by
    decide +kernel
  rintro ⟨_, left, _, right, _, _, ⟨_, _, hfirst, hlast⟩, _, heq⟩
  rw [heq, Option.map_some, Option.some.injEq] at hwidth
  rw [NearFirst, abs_le] at hfirst
  rw [NearLast, abs_le] at hlast
  simp only [fractional, fractionalFrame] at hfirst hlast hwidth
  omega

end Screenshot

end SingularityShell
