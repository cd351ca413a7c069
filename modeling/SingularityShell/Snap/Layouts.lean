import SingularityShell.Lib.Binary64
import SingularityShell.Lib.Cuts
import SingularityShell.Lib.Lists
import SingularityShell.Lib.Machine
import Mathlib.Data.List.Pairwise

/-!
# Layouts for snapping windows

The layouts of `core/snap/snap_layout_model.vala`. The edges of a zone are given in thousandths of
an area and cut to whole pixels in every area anew. Zones that meet compute the edge between them
from the same number, so that they tile every area as they tile the square of a thousand units.

## Main definitions

* `Snap.SnapZone.rectIn`, `Snap.layoutsFor`, `Snap.zoneAt` — zones, layouts and the zone at a pixel
* `Snap.SnapRect.Fits` — areas whose edges fit in an `int`
* `Snap.SnapLayout.Exact` — the zones of a layout tile the square of a thousand units

## Main results

* `Snap.catalogue_exact` — every layout does
* `Snap.layouts_tile` — the headline: so they tile every area, to the pixel
-/

namespace SingularityShell

namespace Snap

open Machine Binary64 Cuts

/-- `SnapRect` -/
structure SnapRect where
  x : ℤ
  y : ℤ
  width : ℤ
  height : ℤ
  deriving DecidableEq

/-- `SnapRect.contains` -/
def SnapRect.contains (r : SnapRect) (px py : ℤ) : Bool :=
  px ≥ r.x && py ≥ r.y && px < wrap32 (r.x + r.width) && py < wrap32 (r.y + r.height)

/-- `SnapZone`: an edge of an area is a thousand units long. -/
@[ext]
structure SnapZone where
  x : ℤ
  y : ℤ
  width : ℤ
  height : ℤ
  deriving DecidableEq

/-- A unit of a zone as a pixel of an area that begins at `start`. -/
def edge (start size unit : ℤ) : ℤ :=
  wrap32 (start + wrap32 ((wrap64 (size * unit)).tdiv 1000))

/-- `SnapZone.rect_in` -/
def SnapZone.rectIn (z : SnapZone) (area : SnapRect) : SnapRect :=
  let left := edge area.x area.width z.x
  let right := edge area.x area.width (wrap32 (z.x + z.width))
  let top := edge area.y area.height z.y
  let bottom := edge area.y area.height (wrap32 (z.y + z.height))
  ⟨left, top, wrap32 (right - left), wrap32 (bottom - top)⟩

/-- `SnapZone.same_as` -/
def SnapZone.sameAs (z other : SnapZone) : Bool :=
  z.x = other.x && z.y = other.y && z.width = other.width && z.height = other.height

/-- `SnapLayout`, with the name before it is translated -/
structure SnapLayout where
  id : String
  name : String
  zones : List SnapZone

/-- `SnapLayout.remaining` -/
def SnapLayout.remaining (layout : SnapLayout) (taken : SnapZone) : List SnapZone :=
  layout.zones.filter fun zone => !zone.sameAs taken

inductive SnapAspect where
  | portrait
  | standard
  | ultrawide
  deriving DecidableEq

/-- `SnapAspect.for_size`: the quotient is that of two doubles. -/
def SnapAspect.forSize (width height : ℤ) : SnapAspect :=
  if width ≤ 0 ∨ height ≤ 0 then .standard
  else
    let ratio := fl (width / height)
    if ratio < 1 then .portrait else if ratio ≥ fl (21 / 10) then .ultrawide else .standard

/-! ### The layouts -/

def third : ℤ := 333
def twoThirds : ℤ := 667

def halves : SnapLayout := ⟨"halves", "Halves", [⟨0, 0, 500, 1000⟩, ⟨500, 0, 500, 1000⟩]⟩

def wideNarrow : SnapLayout :=
  ⟨"two-thirds", "Two Thirds and One Third",
    [⟨0, 0, twoThirds, 1000⟩, ⟨twoThirds, 0, 1000 - twoThirds, 1000⟩]⟩

def thirds : SnapLayout :=
  ⟨"thirds", "Thirds",
    [⟨0, 0, third, 1000⟩, ⟨third, 0, twoThirds - third, 1000⟩,
      ⟨twoThirds, 0, 1000 - twoThirds, 1000⟩]⟩

def quarters : SnapLayout :=
  ⟨"quarters", "Quarters",
    [⟨0, 0, 500, 500⟩, ⟨500, 0, 500, 500⟩, ⟨0, 500, 500, 500⟩, ⟨500, 500, 500, 500⟩]⟩

def halfAndQuarters : SnapLayout :=
  ⟨"half-quarters", "Half and Quarters",
    [⟨0, 0, 500, 1000⟩, ⟨500, 0, 500, 500⟩, ⟨500, 500, 500, 500⟩]⟩

def wideCenter : SnapLayout :=
  ⟨"wide-center", "Wide Center",
    [⟨0, 0, 250, 1000⟩, ⟨250, 0, 500, 1000⟩, ⟨750, 0, 250, 1000⟩]⟩

def fourColumns : SnapLayout :=
  ⟨"columns", "Four Columns",
    [⟨0, 0, 250, 1000⟩, ⟨250, 0, 250, 1000⟩, ⟨500, 0, 250, 1000⟩, ⟨750, 0, 250, 1000⟩]⟩

def stackedHalves : SnapLayout :=
  ⟨"rows", "Top and Bottom", [⟨0, 0, 1000, 500⟩, ⟨0, 500, 1000, 500⟩]⟩

def stackedTwoThirds : SnapLayout :=
  ⟨"rows-two-thirds", "Two Thirds and One Third",
    [⟨0, 0, 1000, twoThirds⟩, ⟨0, twoThirds, 1000, 1000 - twoThirds⟩]⟩

def stackedThirds : SnapLayout :=
  ⟨"rows-thirds", "Thirds",
    [⟨0, 0, 1000, third⟩, ⟨0, third, 1000, twoThirds - third⟩,
      ⟨0, twoThirds, 1000, 1000 - twoThirds⟩]⟩

/-- `SnapLayoutModel.layouts_for` -/
def layoutsFor (width height : ℤ) : List SnapLayout :=
  match SnapAspect.forSize width height with
  | .portrait => [stackedHalves, stackedTwoThirds, stackedThirds, quarters]
  | .ultrawide => [halves, wideNarrow, thirds, wideCenter, fourColumns, quarters]
  | .standard => [halves, wideNarrow, thirds, quarters, halfAndQuarters]

/-- `SnapLayoutModel.zone_at` -/
def zoneAt (layout : SnapLayout) (cell : SnapRect) (px py : ℤ) : Option SnapZone :=
  layout.zones.find? fun zone => (zone.rectIn cell).contains px py

/-! ### Edges -/

/-- An area whose right and lower edges fit in an `int`. -/
structure SnapRect.Fits (area : SnapRect) : Prop where
  x : -2 ^ 31 ≤ area.x
  y : -2 ^ 31 ≤ area.y
  width : 0 ≤ area.width ∧ area.width < 2 ^ 31
  height : 0 ≤ area.height ∧ area.height < 2 ^ 31
  right : area.x + area.width < 2 ^ 31
  bottom : area.y + area.height < 2 ^ 31

section
variable {start size : ℤ} (hstart : -2 ^ 31 ≤ start) (hsize : 0 ≤ size) (hfits : size < 2 ^ 31)
  (hend : start + size < 2 ^ 31)
include hstart hsize hfits hend

/-- Nothing overflows between the ends of an area. -/
theorem edge_eq {unit : ℤ} (h0 : 0 ≤ unit) (h1 : unit ≤ 1000) :
    edge start size unit = start + size * unit / 1000 := by
  have hnonneg : 0 ≤ size * unit := Int.mul_nonneg hsize h0
  have hle : size * unit ≤ size * 1000 := Int.mul_le_mul_of_nonneg_left h1 hsize
  rw [edge, wrap64_eq (by omega) (by omega), Int.tdiv_eq_ediv_of_nonneg hnonneg,
    wrap32_eq (x := size * unit / 1000) (by omega) (by omega), wrap32_eq (by omega) (by omega)]

theorem edge_monotoneOn : MonotoneOn (edge start size) (Set.Icc 0 1000) := by
  rintro a ⟨ha0, ha1⟩ b ⟨hb0, hb1⟩ hab
  rw [edge_eq hstart hsize hfits hend ha0 ha1, edge_eq hstart hsize hfits hend hb0 hb1]
  have hmul : size * a ≤ size * b := Int.mul_le_mul_of_nonneg_left hab hsize
  have hdiv := Int.ediv_le_ediv (show (0 : ℤ) < 1000 by omega) hmul
  omega

theorem edge_zero : edge start size 0 = start := by
  rw [edge_eq hstart hsize hfits hend (by omega) (by omega)]
  omega

theorem edge_thousand : edge start size 1000 = start + size := by
  rw [edge_eq hstart hsize hfits hend (by omega) (by omega)]
  omega

end

/-! ### Zones -/

/-- A zone in thousandths. -/
def SnapZone.box (z : SnapZone) : Box ℤ := ⟨z.x, z.x + z.width, z.y, z.y + z.height⟩

/-- What a zone is in an area. -/
def SnapRect.place (area : SnapRect) : Box ℤ → Box ℤ :=
  Box.map (edge area.x area.width) (edge area.y area.height)

/-- An edge fits in an `int`. -/
theorem wrap32_edge (start size unit : ℤ) : wrap32 (edge start size unit) = edge start size unit :=
  wrap32_wrap32 _

theorem contains_iff (r : SnapRect) (px py : ℤ) : r.contains px py = true ↔
    r.x ≤ px ∧ px < wrap32 (r.x + r.width) ∧ r.y ≤ py ∧ py < wrap32 (r.y + r.height) := by
  simp only [SnapRect.contains, Bool.and_eq_true, decide_eq_true_eq, ge_iff_le]
  tauto

section
variable {z : SnapZone} (hwithin : z.box.Within 1000)
include hwithin

/-- The pixels of a zone are between its edges. -/
theorem contains_rectIn (area : SnapRect) (px py : ℤ) :
    (z.rectIn area).contains px py = true ↔ (area.place z.box).Mem px py := by
  have hx : wrap32 (z.x + z.width) = z.x + z.width := by
    obtain ⟨h0, h1⟩ := hwithin.right
    exact wrap32_eq (le_trans (by omega) h0) (lt_of_le_of_lt h1 (by omega))
  have hy : wrap32 (z.y + z.height) = z.y + z.height := by
    obtain ⟨h0, h1⟩ := hwithin.bottom
    exact wrap32_eq (le_trans (by omega) h0) (lt_of_le_of_lt h1 (by omega))
  have hsum : ∀ start size a b, wrap32 (edge start size a +
      wrap32 (edge start size b - edge start size a)) = edge start size b := by
    intro start size a b
    have hsub := wrap32_add_wrap32_sub (edge start size a) (edge start size b)
    rwa [wrap32_edge] at hsub
  rw [contains_iff]
  simp only [SnapZone.rectIn, hsum, hx, hy]
  rfl

/-- No size is negative. -/
theorem nonneg_rectIn {area : SnapRect} (hfits : area.Fits) (hwidth : 0 ≤ z.width)
    (hheight : 0 ≤ z.height) : 0 ≤ (z.rectIn area).width ∧ 0 ≤ (z.rectIn area).height := by
  have hsize : ∀ {start size a b : ℤ}, -2 ^ 31 ≤ start → 0 ≤ size → size < 2 ^ 31 →
      start + size < 2 ^ 31 → a ∈ Set.Icc 0 1000 → a + b ∈ Set.Icc 0 1000 → 0 ≤ b →
      0 ≤ wrap32 (edge start size (wrap32 (a + b)) - edge start size a) := by
    intro start size a b hstart h0 hlt hend ha hab hb
    have hmono := edge_monotoneOn hstart h0 hlt hend
    have hzero : (0 : ℤ) ∈ Set.Icc 0 1000 := ⟨by omega, by omega⟩
    have hlast : (1000 : ℤ) ∈ Set.Icc 0 1000 := ⟨by omega, by omega⟩
    have hlow := hmono hzero ha ha.1
    have hmid := hmono ha hab (by omega)
    have hhigh := hmono hab hlast hab.2
    rw [edge_zero hstart h0 hlt hend] at hlow
    rw [edge_thousand hstart h0 hlt hend] at hhigh
    obtain ⟨hab0, hab1⟩ := hab
    rw [wrap32_eq (x := a + b) (by omega) (by omega), wrap32_eq (by omega) (by omega)]
    omega
  exact ⟨hsize hfits.x hfits.width.1 hfits.width.2 hfits.right hwithin.left hwithin.right hwidth,
    hsize hfits.y hfits.height.1 hfits.height.2 hfits.bottom hwithin.top hwithin.bottom hheight⟩

end

/-! ### Layouts -/

/-- The zones of a layout tile the square of a thousand units, and no two of them are the same. -/
structure SnapLayout.Exact (layout : SnapLayout) : Prop where
  nodup : layout.zones.Nodup
  within : ∀ z ∈ layout.zones, z.box.Within 1000
  sizes : ∀ z ∈ layout.zones, 0 ≤ z.width ∧ 0 ≤ z.height
  tiled : Tiled (layout.zones.map SnapZone.box) (square 1000)

theorem within_iff (b : Box ℤ) (n : ℤ) : b.Within n ↔
    (0 ≤ b.left ∧ b.left ≤ n) ∧ (0 ≤ b.right ∧ b.right ≤ n) ∧ (0 ≤ b.top ∧ b.top ≤ n) ∧
      0 ≤ b.bottom ∧ b.bottom ≤ n :=
  ⟨fun h => ⟨h.left, h.right, h.top, h.bottom⟩, fun h => ⟨h.1, h.2.1, h.2.2.1, h.2.2.2⟩⟩

/-- All layouts there are. -/
def catalogue : List SnapLayout :=
  [halves, wideNarrow, thirds, quarters, halfAndQuarters, wideCenter, fourColumns, stackedHalves,
    stackedTwoThirds, stackedThirds]

theorem layoutsFor_subset (width height : ℤ) : layoutsFor width height ⊆ catalogue := by
  rw [layoutsFor]
  cases SnapAspect.forSize width height <;> simp [catalogue]

/-- **Every layout tiles the square of a thousand units.** -/
theorem catalogue_exact : ∀ layout ∈ catalogue, layout.Exact := by
  simp only [catalogue, List.forall_mem_cons, List.not_mem_nil, false_imp_iff, implies_true]
  refine ⟨?_, ?_, ?_, ?_, ?_, ?_, ?_, ?_, ?_, ?_, trivial⟩
  all_goals
    refine ⟨by decide, ?_, ?_, ⟨?_, ?_⟩⟩
    · simp [halves, wideNarrow, thirds, quarters, halfAndQuarters, wideCenter, fourColumns,
        stackedHalves, stackedTwoThirds, stackedThirds, third, twoThirds, SnapZone.box, within_iff]
    · simp [halves, wideNarrow, thirds, quarters, halfAndQuarters, wideCenter, fourColumns,
        stackedHalves, stackedTwoThirds, stackedThirds, third, twoThirds]
    · refine List.Pairwise.imp (fun hapart => Box.not_mem_of_apart hapart) ?_
      simp [halves, wideNarrow, thirds, quarters, halfAndQuarters, wideCenter, fourColumns,
        stackedHalves, stackedTwoThirds, stackedThirds, third, twoThirds, SnapZone.box]
    · simp [halves, wideNarrow, thirds, quarters, halfAndQuarters, wideCenter, fourColumns,
        stackedHalves, stackedTwoThirds, stackedThirds, third, twoThirds, SnapZone.box, Box.Mem,
        square]
      omega

section
variable {layout : SnapLayout} (hlayout : layout.Exact) {area : SnapRect} (hfits : area.Fits)
include hlayout hfits

/-- The zones of a layout tile an area. -/
theorem tiled_place :
    Tiled (layout.zones.map fun z => area.place z.box) (area.place (square 1000)) := by
  have hmap := hlayout.tiled.map
    (edge_monotoneOn hfits.x hfits.width.1 hfits.width.2 hfits.right)
    (edge_monotoneOn hfits.y hfits.height.1 hfits.height.2 hfits.bottom) (by omega)
    (List.forall_mem_map.mpr hlayout.within)
  rwa [List.map_map] at hmap

omit hlayout in
/-- The square of a thousand units is the area. -/
theorem mem_place_square (px py : ℤ) :
    (area.place (square 1000)).Mem px py ↔ area.contains px py = true := by
  have hx := hfits.x
  have hy := hfits.y
  have hw := hfits.width
  have hh := hfits.height
  rw [contains_iff, wrap32_eq (by omega) hfits.right, wrap32_eq (by omega) hfits.bottom]
  simp only [SnapRect.place, Box.map, square, Box.Mem,
    edge_zero hx hw.1 hw.2 hfits.right, edge_zero hy hh.1 hh.2 hfits.bottom,
    edge_thousand hx hw.1 hw.2 hfits.right, edge_thousand hy hh.1 hh.2 hfits.bottom]

/-- No pixel is in two zones. -/
theorem disjoint_zones : layout.zones.Pairwise fun a b => ∀ px py,
    ¬ ((a.rectIn area).contains px py = true ∧ (b.rectIn area).contains px py = true) := by
  have hpair := List.pairwise_map.mp (tiled_place hlayout hfits).disjoint
  refine hpair.imp_of_mem fun {a b} ha hb hab px py => ?_
  rw [contains_rectIn (hlayout.within a ha), contains_rectIn (hlayout.within b hb)]
  exact hab px py

/-- A pixel is in a zone when it is in the area. -/
theorem exists_zone_iff (px py : ℤ) :
    (∃ z ∈ layout.zones, (z.rectIn area).contains px py = true) ↔
      area.contains px py = true := by
  rw [← mem_place_square hfits, ← (tiled_place hlayout hfits).cover]
  constructor
  · rintro ⟨z, hz, hmem⟩
    exact ⟨_, List.mem_map_of_mem hz, (contains_rectIn (hlayout.within z hz) area px py).mp hmem⟩
  · rintro ⟨_, hb, hmem⟩
    obtain ⟨z, hz, rfl⟩ := List.mem_map.mp hb
    exact ⟨z, hz, (contains_rectIn (hlayout.within z hz) area px py).mpr hmem⟩

/-- The zone at a pixel is the one that contains it. -/
theorem zoneAt_eq_some_iff (px py : ℤ) (z : SnapZone) :
    zoneAt layout area px py = some z ↔
      z ∈ layout.zones ∧ (z.rectIn area).contains px py = true := by
  constructor
  · intro h
    rw [zoneAt] at h
    have hfound := List.find?_some h
    exact ⟨List.mem_of_find?_eq_some h, hfound⟩
  · rintro ⟨hz, hmem⟩
    refine Lists.find?_eq_some_of_unique hz hmem fun b hb hbmem => ?_
    by_contra hne
    have hsymm : Std.Symm fun a b : SnapZone => ∀ px py,
        ¬ ((a.rectIn area).contains px py = true ∧ (b.rectIn area).contains px py = true) :=
      ⟨fun a b hab px py hba => hab px py hba.symm⟩
    exact (disjoint_zones hlayout hfits).forall hb hz hne px py ⟨hbmem, hmem⟩

end

/-- What is left of a list of different zones without one of them. -/
theorem remaining_eq {layout : SnapLayout} (hlayout : layout.Exact) {before after : List SnapZone}
    {taken : SnapZone} (h : layout.zones = before ++ taken :: after) :
    layout.remaining taken = before ++ after := by
  have hsame : ∀ z : SnapZone, z.sameAs taken = true ↔ z = taken := by
    rintro ⟨x, y, w, h⟩
    simp only [SnapZone.sameAs, Bool.and_eq_true, decide_eq_true_eq]
    rw [SnapZone.ext_iff]
    tauto
  have hnodup := hlayout.nodup
  rw [h] at hnodup
  have hkeep : ∀ z ∈ before ++ after, (!z.sameAs taken) = true := by
    intro z hz
    have hne : z ≠ taken := fun he =>
      (List.nodup_middle.mp hnodup).notMem (he ▸ hz)
    rw [Bool.not_eq_true', ← Bool.not_eq_true, hsame]
    exact hne
  have hdrop : (!taken.sameAs taken) = false := by
    rw [(hsame taken).mpr rfl]
    rfl
  rw [SnapLayout.remaining, h, List.filter_append, List.filter_cons_of_neg (by simp [hdrop]),
    ← List.filter_append, List.filter_eq_self.mpr hkeep]

/-- **The layouts tile every area.** No size is negative, no pixel is in two zones, the pixels of
the zones are those of the area, `zone_at` finds the zone of a pixel and nothing outside, and the
remaining zones are the other ones. -/
theorem layouts_tile {area : SnapRect} (hfits : area.Fits) {width height : ℤ} {layout : SnapLayout}
    (hlayout : layout ∈ layoutsFor width height) :
    (∀ z ∈ layout.zones, 0 ≤ (z.rectIn area).width ∧ 0 ≤ (z.rectIn area).height) ∧
    (layout.zones.Pairwise fun a b => ∀ px py,
      ¬ ((a.rectIn area).contains px py = true ∧ (b.rectIn area).contains px py = true)) ∧
    (∀ px py, (∃ z ∈ layout.zones, (z.rectIn area).contains px py = true) ↔
      area.contains px py = true) ∧
    (∀ px py z, zoneAt layout area px py = some z ↔
      z ∈ layout.zones ∧ (z.rectIn area).contains px py = true) ∧
    (∀ px py, zoneAt layout area px py = none ↔ area.contains px py = false) ∧
    (∀ before taken after, layout.zones = before ++ taken :: after →
      layout.remaining taken = before ++ after) := by
  have hexact := catalogue_exact layout (layoutsFor_subset width height hlayout)
  refine ⟨fun z hz => ?_, disjoint_zones hexact hfits, exists_zone_iff hexact hfits,
    zoneAt_eq_some_iff hexact hfits, fun px py => ?_, fun before taken after h =>
      remaining_eq hexact h⟩
  · obtain ⟨hwidth, hheight⟩ := hexact.sizes z hz
    exact nonneg_rectIn (hexact.within z hz) hfits hwidth hheight
  · rw [← Bool.not_eq_true, ← exists_zone_iff hexact hfits, zoneAt, List.find?_eq_none]
    simp

/-- Thirds of an area of a hundred pixels: the second one begins at the pixel 33. -/
theorem layouts_tile_thirds : zoneAt thirds ⟨0, 0, 100, 10⟩ 33 5 = some ⟨333, 0, 334, 1000⟩ := by
  have hlayout : thirds ∈ layoutsFor 1920 1080 := by
    have haspect : SnapAspect.forSize 1920 1080 = .standard := by decide +kernel
    rw [layoutsFor, haspect]
    simp
  have hfits : SnapRect.Fits ⟨0, 0, 100, 10⟩ := by
    constructor <;> decide
  exact ((layouts_tile hfits hlayout).2.2.2.1 33 5 _).mpr ⟨by decide, by decide⟩

end Snap

end SingularityShell
