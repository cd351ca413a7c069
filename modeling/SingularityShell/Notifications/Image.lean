import SingularityShell.Lib.Ascii
import SingularityShell.Lib.Machine
import SingularityShell.Lib.Path

/-!
# The images of notifications

A client may send the pixels of an image with a notification. Three numbers say where the rows are
in the bytes, and the manager compares them with the number of bytes before it builds a pixbuf.

## Main definitions

* `Notifications.ImageData`, `Notifications.Pixbuf` — what was sent, and what is built of it
* `Notifications.pixbuf`, `Notifications.saveImageDataToTmp`
* `Notifications.Pixbuf.InBounds` — every row is among the bytes
* `Notifications.ImageData.Measured`

## Main results

* `Notifications.pixels_inBounds_iff` — when the comparison is enough
* `Notifications.Pixbuf.InBounds.pixel` — every pixel is among the bytes
-/

namespace SingularityShell

namespace Notifications

open Ascii Machine

/-- `GLib.Bytes`, whose size is a `size_t`. -/
abbrev Bytes := { bytes : List UInt8 // bytes.length < 2 ^ 64 }

/-- A value of the type `(iiibiiay)`. -/
structure ImageData where
  width : Int32
  height : Int32
  rowstride : Int32
  hasAlpha : Bool
  bitsPerSample : Int32
  channels : Int32
  data : Bytes

/-- The arguments of `Gdk.Pixbuf.from_bytes`. -/
structure Pixbuf where
  data : Bytes
  hasAlpha : Bool
  bitsPerSample : Int32
  width : Int32
  height : Int32
  rowstride : Int32

/-- The number of bytes of a pixel. -/
def pixelSize (hasAlpha : Bool) : Int32 := if hasAlpha then 4 else 3

/-- `get_size` -/
def Bytes.getSize (data : Bytes) : UInt64 := .ofNat data.1.length

/-- An `int` as a `size_t`. -/
def sizeT (n : Int32) : UInt64 := n.toInt64.toUInt64

/-- The pixbuf that `save_image_data_to_tmp` builds. -/
def pixbuf (v : ImageData) : Option Pixbuf :=
  if v.width ≤ 0 ∨ v.height ≤ 0 ∨ v.rowstride ≤ 0 then none
  else if v.data.getSize <
      sizeT (v.rowstride * (v.height - 1) + v.width * pixelSize v.hasAlpha) then
    none
  else
    some {
      data := v.data
      hasAlpha := v.hasAlpha
      bitsPerSample := v.bitsPerSample
      width := v.width
      height := v.height
      rowstride := v.rowstride }

/-- The directory, the clock and whether an image can be saved. -/
structure ImageEnv where
  dir : Text
  realTime : Int64
  saves : Pixbuf → Text → Bool

/-- `save_image_data_to_tmp`, where a value of another type is `none`. -/
def saveImageDataToTmp (env : ImageEnv) (v : Option ImageData) (id : UInt32) : Option Text :=
  match v.bind pixbuf with
  | none => none
  | some image =>
    let path := Path.buildFilename env.dir (ofString "notif-" ++ decimal id.toNat ++
      ofString "-" ++ signed env.realTime.toInt ++ ofString ".png")
    if env.saves image path then some path else none

/-! ### Where the pixels are -/

/-- The number of bytes from the first pixel to the last one, in exact arithmetic. -/
def extent (width height rowstride : Int32) (hasAlpha : Bool) : ℤ :=
  rowstride.toInt * (height.toInt - 1) + width.toInt * (pixelSize hasAlpha).toInt

def ImageData.extent (v : ImageData) : ℤ :=
  Notifications.extent v.width v.height v.rowstride v.hasAlpha

/-- A row is not longer than its stride. -/
def ImageData.RowFits (v : ImageData) : Prop :=
  v.width.toInt * (pixelSize v.hasAlpha).toInt ≤ v.rowstride.toInt

/-- A number of bytes that is an `int` is compared as it is. One that is not is compared as what is
left of it. -/
def ImageData.Measured (v : ImageData) : Prop :=
  (v.width ≤ 0 ∨ v.height ≤ 0 ∨ v.rowstride ≤ 0) ∨
  (v.extent < 2 ^ 31 ∧ (v.RowFits ∨ v.data.1.length < v.extent)) ∨
  (2 ^ 31 ≤ v.extent ∧
    (v.RowFits ∧ v.extent ≤ v.data.1.length ∨ v.data.1.length < wrap32 v.extent % 2 ^ 64))

/-- The rows are among the bytes, and none is longer than its stride. -/
structure Pixbuf.InBounds (p : Pixbuf) : Prop where
  extent_le : extent p.width p.height p.rowstride p.hasAlpha ≤ p.data.1.length
  row_le : p.width.toInt * (pixelSize p.hasAlpha).toInt ≤ p.rowstride.toInt

theorem pixelSize_pos (hasAlpha : Bool) : 0 < (pixelSize hasAlpha).toInt := by
  cases hasAlpha
  · decide
  · decide

/-- Every byte of every pixel is in the buffer. -/
theorem Pixbuf.InBounds.pixel {p : Pixbuf} (h : p.InBounds) {x y c : ℕ} (hstride : 0 ≤ p.rowstride)
    (hx : x < p.width.toInt) (hy : y < p.height.toInt)
    (hc : c < (pixelSize p.hasAlpha).toInt) :
    y * p.rowstride.toInt + x * (pixelSize p.hasAlpha).toInt + c < p.data.1.length := by
  have hrow : (x + 1) * (pixelSize p.hasAlpha).toInt ≤
      p.width.toInt * (pixelSize p.hasAlpha).toInt :=
    Int.mul_le_mul_of_nonneg_right (by omega) (pixelSize_pos _).le
  have hbefore : y * p.rowstride.toInt ≤ (p.height.toInt - 1) * p.rowstride.toInt :=
    Int.mul_le_mul_of_nonneg_right (by omega) (Int32.le_iff_toInt_le.mp hstride)
  have hextent := h.extent_le
  rw [extent, mul_comm p.rowstride.toInt] at hextent
  calc y * p.rowstride.toInt + x * (pixelSize p.hasAlpha).toInt + c
      < y * p.rowstride.toInt + (x + 1) * (pixelSize p.hasAlpha).toInt := by
        rw [add_mul, one_mul]
        omega
    _ ≤ (p.height.toInt - 1) * p.rowstride.toInt +
        p.width.toInt * (pixelSize p.hasAlpha).toInt := add_le_add hbefore hrow
    _ ≤ p.data.1.length := hextent

/-! ### The comparison -/

/-- The number that is compared with the size. -/
theorem toInt_extent (width height rowstride : Int32) (hasAlpha : Bool) :
    (rowstride * (height - 1) + width * pixelSize hasAlpha).toInt =
      wrap32 (extent width height rowstride hasAlpha) := by
  have hone : (1 : Int32).toInt = 1 := rfl
  rw [Int32.toInt_add, Int32.toInt_mul, Int32.toInt_mul, Int32.toInt_sub, hone, extent, wrap32,
    Int.mul_bmod_bmod, Int.bmod_add_bmod, Int.add_bmod_bmod]

theorem toNat_sizeT (n : Int32) : ((sizeT n).toNat : ℤ) = n.toInt % 2 ^ 64 := by
  have hsize : (sizeT n).toNat = n.toInt64.toBitVec.toNat := rfl
  have hint : n.toInt64.toInt = (n.toInt64.toBitVec.toNat : ℤ).bmod (2 ^ 64) :=
    BitVec.toInt_eq_toNat_bmod _
  have hlt := n.toInt64.toBitVec.isLt
  rw [Int32.toInt_toInt64, Int.bmod_def] at hint
  omega

theorem toNat_getSize (data : Bytes) : data.getSize.toNat = data.1.length :=
  UInt64.toNat_ofNat_of_lt' data.2

theorem pixbuf_eq_none {v : ImageData} (h : v.width ≤ 0 ∨ v.height ≤ 0 ∨ v.rowstride ≤ 0) :
    pixbuf v = none := if_pos h

/-- The pixbuf is built when the bytes are as many as the number that is compared. -/
theorem pixbuf_eq_some_iff {v : ImageData} {p : Pixbuf}
    (h : ¬ (v.width ≤ 0 ∨ v.height ≤ 0 ∨ v.rowstride ≤ 0)) : pixbuf v = some p ↔
      wrap32 v.extent % 2 ^ 64 ≤ v.data.1.length ∧ p =
        { data := v.data, hasAlpha := v.hasAlpha, bitsPerSample := v.bitsPerSample,
          width := v.width, height := v.height, rowstride := v.rowstride } := by
  have hsize : v.data.getSize <
      sizeT (v.rowstride * (v.height - 1) + v.width * pixelSize v.hasAlpha) ↔
      v.data.1.length < wrap32 v.extent % 2 ^ 64 := by
    have hneeded := toNat_sizeT (v.rowstride * (v.height - 1) + v.width * pixelSize v.hasAlpha)
    rw [toInt_extent] at hneeded
    rw [UInt64.lt_iff_toNat_lt, toNat_getSize, ImageData.extent, ← hneeded, Int.ofNat_lt]
  rw [pixbuf, if_neg h]
  by_cases hshort : v.data.1.length < wrap32 v.extent % 2 ^ 64
  · rw [if_pos (hsize.mpr hshort)]
    exact iff_of_false (Option.some_ne_none p).symm fun hbad => hbad.1.not_gt hshort
  · rw [if_neg (hsize.not.mpr hshort), Option.some_inj]
    exact ⟨fun heq => ⟨not_lt.mp hshort, heq.symm⟩, fun heq => heq.2.symm⟩

theorem extent_nonneg {v : ImageData} (h : ¬ (v.width ≤ 0 ∨ v.height ≤ 0 ∨ v.rowstride ≤ 0)) :
    0 ≤ v.extent := by
  have hzero : (0 : Int32).toInt = 0 := rfl
  rw [not_or, not_or, Int32.le_iff_toInt_le, Int32.le_iff_toInt_le, Int32.le_iff_toInt_le, hzero,
    not_le, not_le, not_le] at h
  obtain ⟨hwidth, hheight, hstride⟩ := h
  exact add_nonneg (Int.mul_nonneg hstride.le (by omega))
    (Int.mul_nonneg hwidth.le (pixelSize_pos _).le)

/-- **When the comparison is enough.** The images of which a pixbuf is built are in bounds, unless
their rows overlap or the number of bytes is no `int` and what is left of it is small. -/
theorem pixels_inBounds_iff (v : ImageData) :
    (∀ p, pixbuf v = some p → p.InBounds) ↔ v.Measured := by
  by_cases hdim : v.width ≤ 0 ∨ v.height ≤ 0 ∨ v.rowstride ≤ 0
  · refine iff_of_true (fun p hp => ?_) (Or.inl hdim)
    rw [pixbuf_eq_none hdim] at hp
    exact absurd hp.symm (Option.some_ne_none p)
  have hnonneg := extent_nonneg hdim
  have hbuilt : (∀ p, pixbuf v = some p → p.InBounds) ↔
      v.data.1.length < wrap32 v.extent % 2 ^ 64 ∨ v.extent ≤ v.data.1.length ∧ v.RowFits := by
    constructor
    · intro h
      by_cases hshort : v.data.1.length < wrap32 v.extent % 2 ^ 64
      · exact Or.inl hshort
      · obtain ⟨hextent, hrow⟩ := h _ ((pixbuf_eq_some_iff hdim).mpr ⟨not_lt.mp hshort, rfl⟩)
        exact Or.inr ⟨hextent, hrow⟩
    · rintro h p hp
      obtain ⟨henough, rfl⟩ := (pixbuf_eq_some_iff hdim).mp hp
      obtain ⟨hextent, hrow⟩ := h.resolve_left henough.not_gt
      exact ⟨hextent, hrow⟩
  rw [hbuilt, ImageData.Measured]
  rcases lt_or_ge v.extent (2 ^ 31) with hint | hint
  · have hleft : wrap32 v.extent % 2 ^ 64 = v.extent := by
      rw [wrap32_eq (by omega) hint]
      omega
    rw [hleft]
    constructor
    · rintro (hshort | ⟨-, hrow⟩)
      · exact Or.inr (Or.inl ⟨hint, Or.inr hshort⟩)
      · exact Or.inr (Or.inl ⟨hint, Or.inl hrow⟩)
    · rintro (hbad | ⟨-, hrow | hshort⟩ | ⟨hlarge, -⟩)
      · exact absurd hbad hdim
      · rcases lt_or_ge (v.data.1.length : ℤ) v.extent with hshort | henough
        · exact Or.inl hshort
        · exact Or.inr ⟨henough, hrow⟩
      · exact Or.inl hshort
      · omega
  · constructor
    · rintro (hshort | ⟨hextent, hrow⟩)
      · exact Or.inr (Or.inr ⟨hint, Or.inr hshort⟩)
      · exact Or.inr (Or.inr ⟨hint, Or.inl ⟨hrow, hextent⟩⟩)
    · rintro (hbad | ⟨hsmall, -⟩ | ⟨-, ⟨hrow, hextent⟩ | hshort⟩)
      · exact absurd hbad hdim
      · omega
      · exact Or.inr ⟨hextent, hrow⟩
      · exact Or.inl hshort

/-- Three bytes for an image of one column with rows 65536 bytes apart. -/
def tallImage : ImageData where
  width := 1
  height := 65537
  rowstride := 65536
  hasAlpha := false
  bitsPerSample := 8
  channels := 3
  data := ⟨[0, 0, 0], by decide⟩

/-- **A product that wraps.** The last row is 2 ^ 32 bytes behind the first, and three are given. -/
theorem not_inBounds_tallImage : ¬ ∀ p, pixbuf tallImage = some p → p.InBounds := by
  intro h
  have hbad := (h _ (by rfl)).extent_le
  exact absurd hbad (by decide)

end Notifications

end SingularityShell
