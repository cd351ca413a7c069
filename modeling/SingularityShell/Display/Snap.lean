import Mathlib.Algebra.Order.BigOperators.Group.List
import Mathlib.Data.List.Chain
import Mathlib.Data.List.Nodup
import Mathlib.Data.List.Pairwise
import Mathlib.Tactic.Linarith
import SingularityShell.Display.Heads
import SingularityShell.Lib.Bubble
import SingularityShell.Lib.Lists
import SingularityShell.Lib.Machine

/-!
# Packing the displays

When a display has been dragged in the preview, the enabled ones are put into a row, in the order of
their positions. The preview draws a display that is turned by a quarter with its height as its
width, and the row is packed without that. Positions are `int`s, and wrap around.

## Main definitions

* `MonitorPreview.Displays` — the monitors, as the objects that they are
* `MonitorPreview.snapToGrid` — the monitors after a drag
* `MonitorPreview.Packed` — what they should then be

## Main results

* `MonitorPreview.snapToGrid_row` — the row that the monitors stand in
* `MonitorPreview.packed_snapToGrid_iff` — when the row is the one that is drawn
-/

namespace SingularityShell

namespace MonitorPreview

open Display (Monitor)
open Machine

/-! ### Sizes -/

/-- The size of the current mode, and another one without a mode. -/
def viewSize (m : Monitor) : ℤ × ℤ :=
  match m.currentMode with
  | some mode => (mode.width, mode.height)
  | none => (1920, 1080)

/-- The width that `calculate_view_transform` and `draw_func` have of a monitor. -/
def drawnWidth (m : Monitor) : ℤ :=
  if m.transform = 1 ∨ m.transform = 3 ∨ m.transform = 5 ∨ m.transform = 7 then (viewSize m).2
  else (viewSize m).1

/-- The width that `on_drag_begin` and `on_click_pressed` have of a monitor. -/
def hitWidth (m : Monitor) : ℤ :=
  if m.transform.tmod 2 ≠ 0 then (viewSize m).2 else (viewSize m).1

/-- The width with which `snap_to_grid` packs a monitor. -/
def snapWidth (m : Monitor) : ℤ :=
  match m.currentMode with
  | some mode => mode.width
  | none => 1920

/-- The monitor is not turned by a quarter, or as wide as it is high. -/
def Straight (m : Monitor) : Prop := m.transform.tmod 2 = 0 ∨ (viewSize m).1 = (viewSize m).2

theorem snapWidth_eq (m : Monitor) : snapWidth m = (viewSize m).1 := by
  rw [snapWidth, viewSize]
  split <;> rfl

theorem straight_iff (m : Monitor) :
    Straight m ↔ snapWidth m = drawnWidth m ∧ snapWidth m = hitWidth m := by
  have hodd : m.transform = 1 ∨ m.transform = 3 ∨ m.transform = 5 ∨ m.transform = 7 →
      m.transform.tmod 2 ≠ 0 := by
    rintro (h | h | h | h) <;> rw [h] <;> decide
  rw [Straight, snapWidth_eq, drawnWidth, hitWidth]
  by_cases h : m.transform.tmod 2 = 0
  · rw [if_neg fun hturned => hodd hturned h, if_neg (not_not.2 h)]
    simp [h]
  · rw [if_pos h]
    split <;> simp [h]

/-! ### The displays -/

/-- The monitors of the display manager, as references to objects. The sizes of a mode are `int`s
that are not negative. -/
structure Displays where
  monitors : List ℕ
  object : ℕ → Monitor
  nodup : monitors.Nodup
  sized : ∀ r mode, (object r).currentMode = some mode →
    (0 ≤ mode.width ∧ mode.width < 2 ^ 31) ∧ 0 ≤ mode.height ∧ mode.height < 2 ^ 31

def Displays.enabled (d : Displays) : List ℕ := d.monitors.filter fun r => (d.object r).enabled

/-- Puts the monitors next to each other. -/
def pack : List ℕ → ℤ → (ℕ → Monitor) → ℕ → Monitor
  | [], _, object => object
  | r :: row, cursor, object =>
    pack row (wrap32 (cursor + snapWidth (object r)))
      (Function.update object r { object r with x := cursor, y := 0 })

theorem pack_of_notMem {row : List ℕ} {r : ℕ} (hr : r ∉ row) (cursor : ℤ) (object : ℕ → Monitor) :
    pack row cursor object r = object r := by
  induction row generalizing cursor object with
  | nil => rfl
  | cons a row ih =>
    obtain ⟨hne, hr⟩ := List.ne_and_not_mem_of_not_mem_cons hr
    rw [pack, ih hr, Function.update_of_ne hne]

/-- Nothing but the position of a monitor is changed. -/
theorem pack_apply (row : List ℕ) (cursor : ℤ) (object : ℕ → Monitor) (r : ℕ) :
    ∃ x y, pack row cursor object r = { object r with x, y } := by
  induction row generalizing cursor object with
  | nil => exact ⟨(object r).x, (object r).y, rfl⟩
  | cons a row ih =>
    obtain ⟨x, y, h⟩ := ih (wrap32 (cursor + snapWidth (object a)))
      (Function.update object a { object a with x := cursor, y := 0 })
    refine ⟨x, y, ?_⟩
    rw [pack, h]
    by_cases hra : r = a
    · rw [hra, Function.update_self]
    · rw [Function.update_of_ne hra]

theorem pack_currentMode (row : List ℕ) (cursor : ℤ) (object : ℕ → Monitor) (r : ℕ) :
    (pack row cursor object r).currentMode = (object r).currentMode := by
  obtain ⟨x, y, h⟩ := pack_apply row cursor object r
  rw [h]

def snapToGrid (d : Displays) : Displays where
  monitors := d.monitors
  object := pack (Bubble.sort (fun r => (d.object r).x) d.enabled) 0 d.object
  nodup := d.nodup
  sized r mode h := d.sized r mode (by rwa [pack_currentMode] at h)

/-! ### What the row should be -/

/-- The order of the dragged positions, and the old order where they are the same. -/
def Displays.Before (d : Displays) (a b : ℕ) : Prop :=
  (d.object a).x < (d.object b).x ∨
    (d.object a).x = (d.object b).x ∧ [a, b].Sublist d.monitors

/-- The second monitor starts where the first one ends. -/
def Displays.Adjoins (d : Displays) (width : Monitor → ℤ) (a b : ℕ) : Prop :=
  (d.object b).x = (d.object a).x + width (d.object a)

/-- The monitor is the one at a place of the row. -/
def Displays.Holds (d : Displays) (width : Monitor → ℤ) (a : ℕ) (x : ℤ) : Prop :=
  (d.object a).x ≤ x ∧ x < (d.object a).x + width (d.object a)

/-- The displays after a drag: a row of the enabled ones, as they are drawn and as they are hit. -/
structure Packed (d after : Displays) : Prop where
  monitors : after.monitors = d.monitors
  moved : ∀ r, ∃ x y, after.object r = { d.object r with x, y }
  still : ∀ r ∉ d.enabled, after.object r = d.object r
  row : ∃ row : List ℕ, row.Perm d.enabled ∧ row.Pairwise d.Before ∧
    (∀ r ∈ row, (after.object r).y = 0) ∧ (∀ r ∈ row.head?, (after.object r).x = 0) ∧
    ∀ width ∈ [drawnWidth, hitWidth], row.IsChain (after.Adjoins width)
  apart : ∀ width ∈ [drawnWidth, hitWidth], ∀ a ∈ d.enabled, ∀ b ∈ d.enabled, a ≠ b →
    ∀ x, ¬(after.Holds width a x ∧ after.Holds width b x)
  covered : ∀ width ∈ [drawnWidth, hitWidth], ∀ x, 0 ≤ x →
    (∃ a ∈ d.enabled, x < (after.object a).x + width (after.object a)) →
      ∃ a ∈ d.enabled, after.Holds width a x

theorem viewSize_bounds (d : Displays) (r : ℕ) :
    (0 ≤ (viewSize (d.object r)).1 ∧ (viewSize (d.object r)).1 < 2 ^ 31) ∧
      0 ≤ (viewSize (d.object r)).2 ∧ (viewSize (d.object r)).2 < 2 ^ 31 := by
  rw [viewSize]
  split
  next mode h => exact d.sized r mode h
  next => decide

theorem snapWidth_bounds (d : Displays) (r : ℕ) :
    0 ≤ snapWidth (d.object r) ∧ snapWidth (d.object r) < 2 ^ 31 := by
  rw [snapWidth_eq]
  exact (viewSize_bounds d r).1

theorem width_bounds (d : Displays) {width : Monitor → ℤ} (h : width ∈ [drawnWidth, hitWidth])
    (r : ℕ) : 0 ≤ width (d.object r) ∧ width (d.object r) < 2 ^ 31 := by
  have hsize := viewSize_bounds d r
  rcases List.mem_pair.1 h with rfl | rfl
  · rw [drawnWidth]
    split <;> omega
  · rw [hitWidth]
    split <;> omega

/-! ### A row without gaps -/

section Row

variable {d : Displays} {width : Monitor → ℤ}

/-- In a row, each monitor ends before the later ones start. -/
theorem pairwise_of_adjoins (hwidth : ∀ r, 0 ≤ width (d.object r)) {row : List ℕ}
    (h : row.IsChain (d.Adjoins width)) :
    row.Pairwise fun a b => (d.object a).x + width (d.object a) ≤ (d.object b).x := by
  have : IsTrans ℕ fun a b => (d.object a).x + width (d.object a) ≤ (d.object b).x :=
    ⟨fun a b c hab hbc => by linarith [hwidth b]⟩
  exact List.isChain_iff_pairwise.1 (h.imp fun a b hab => hab.ge)

theorem apart_of_adjoins (hwidth : ∀ r, 0 ≤ width (d.object r)) {row : List ℕ}
    (h : row.IsChain (d.Adjoins width)) {a b : ℕ} (ha : a ∈ row) (hb : b ∈ row) (hne : a ≠ b)
    (x : ℤ) : ¬(d.Holds width a x ∧ d.Holds width b x) := by
  have : Std.Symm fun a b => ¬(d.Holds width a x ∧ d.Holds width b x) :=
    ⟨fun a b hab hba => hab hba.symm⟩
  refine List.Pairwise.forall (R := fun a b => ¬(d.Holds width a x ∧ d.Holds width b x))
    ((pairwise_of_adjoins hwidth h).imp ?_) ha hb hne
  rintro a b hab ⟨ha, hb⟩
  exact absurd (hab.trans hb.1) (not_le.2 ha.2)

theorem covered_of_adjoins {row : List ℕ} {r : ℕ} (h : (r :: row).IsChain (d.Adjoins width))
    {x : ℤ} (hx : (d.object r).x ≤ x) {a : ℕ} (ha : a ∈ r :: row)
    (hlt : x < (d.object a).x + width (d.object a)) : ∃ a ∈ r :: row, d.Holds width a x := by
  induction row generalizing r with
  | nil =>
    obtain rfl := List.mem_singleton.1 ha
    exact ⟨a, ha, hx, hlt⟩
  | cons b row ih =>
    obtain ⟨hadjoins, hrow⟩ := List.isChain_cons_cons.1 h
    by_cases hin : x < (d.object r).x + width (d.object r)
    · exact ⟨r, List.mem_cons_self, hx, hin⟩
    · have hx : (d.object b).x ≤ x := by rw [hadjoins]; exact not_lt.1 hin
      have ha : a ∈ b :: row := by
        rcases List.mem_cons.1 ha with rfl | ha
        · exact absurd hlt hin
        · exact ha
      obtain ⟨c, hc, hholds⟩ := ih hrow hx ha
      exact ⟨c, List.mem_cons_of_mem r hc, hholds⟩

/-- Positions that may have wrapped around have not, exactly if the widths of all but the last one
fit in the row. -/
theorem isChain_exact_iff {x w : ℕ → ℤ} {row : List ℕ} {start : ℤ} (hw : ∀ r, 0 ≤ w r)
    (hstart : -2 ^ 31 ≤ start ∧ start < 2 ^ 31) (hx : ∀ r ∈ row.head?, x r = start)
    (h : row.IsChain fun a b => x b = wrap32 (x a + w a)) :
    (row.IsChain fun a b => x b = x a + w a) ↔ start + (row.dropLast.map w).sum < 2 ^ 31 := by
  induction row generalizing start with
  | nil => simpa using hstart.2
  | cons a row ih =>
    obtain rfl := hx a rfl
    cases row with
    | nil => simpa using hstart.2
    | cons b row =>
      obtain ⟨hab, hrow⟩ := List.isChain_cons_cons.1 h
      have hwrap := wrap32_bounds (x a + w a)
      have hrest : 0 ≤ ((b :: row).dropLast.map w).sum := List.sum_nonneg fun v hv => by
        obtain ⟨r, -, rfl⟩ := List.mem_map.1 hv
        exact hw r
      have ih := @ih (x b) (by omega) (fun r hr => by rw [Option.some.inj hr]) hrow
      have hwa := hw a
      rw [List.isChain_cons_cons, ih, List.dropLast_cons_cons, List.map_cons, List.sum_cons]
      constructor
      · rintro ⟨hexact, hsum⟩
        omega
      · intro hsum
        have hexact : x b = x a + w a := hab.trans (wrap32_eq (by omega) (by omega))
        exact ⟨hexact, by omega⟩

end Row

/-! ### The row that is made -/

/-- The monitors stand next to each other, in the widths that their modes have, as long as their
positions do not wrap around. -/
theorem pack_row {row : List ℕ} (h : row.Nodup) (cursor : ℤ) (object : ℕ → Monitor) :
    (∀ r ∈ row, (pack row cursor object r).y = 0) ∧
      (∀ r ∈ row.head?, (pack row cursor object r).x = cursor) ∧
        row.IsChain fun a b => (pack row cursor object b).x =
          wrap32 ((pack row cursor object a).x + snapWidth (object a)) := by
  induction row generalizing cursor object with
  | nil => exact ⟨by simp, by simp, List.IsChain.nil⟩
  | cons r row ih =>
    obtain ⟨hr, hrow⟩ := List.nodup_cons.1 h
    have hself : pack (r :: row) cursor object r = { object r with x := cursor, y := 0 } := by
      rw [pack, pack_of_notMem hr, Function.update_self]
    obtain ⟨hy, hx, hchain⟩ := ih hrow (wrap32 (cursor + snapWidth (object r)))
      (Function.update object r { object r with x := cursor, y := 0 })
    refine ⟨?_, ?_, ?_⟩
    · rintro a (_ | ⟨_, ha⟩)
      · rw [hself]
      · exact hy a ha
    · rintro a ha
      obtain rfl : r = a := by simpa using ha
      rw [hself]
    · rw [List.isChain_cons]
      refine ⟨fun b hb => ?_, ?_⟩
      · rw [hself]
        exact hx b hb
      · refine hchain.imp_of_mem_imp ?_
        intro a b ha _ hab
        rw [pack, hab, Function.update_of_ne]
        rintro rfl
        exact hr ha

theorem pairwise_enabled (d : Displays) :
    d.enabled.Pairwise fun a b => [a, b].Sublist d.monitors :=
  (List.pairwise_iff_forall_sublist.2 fun h => h).sublist List.filter_sublist

/-- The row that `snap_to_grid` makes. -/
def Displays.snapped (d : Displays) : List ℕ := Bubble.sort (fun r => (d.object r).x) d.enabled

theorem snapped_perm (d : Displays) : d.snapped.Perm d.enabled := Bubble.sort_perm _ _

theorem snapped_pairwise (d : Displays) : d.snapped.Pairwise d.Before :=
  Bubble.sort_pairwise (pairwise_enabled d)

theorem Displays.Before.asymm {d : Displays} {a b : ℕ} (hab : d.Before a b) : ¬d.Before b a := by
  rintro (hba | ⟨heq, hba⟩) <;> rcases hab with hab | ⟨heq', hab⟩
  · omega
  · omega
  · omega
  · exact Lists.not_sublist_swap d.nodup hab hba

/-- There is only one order in which the monitors can stand. -/
theorem eq_snapped {d : Displays} {row : List ℕ} (hperm : row.Perm d.enabled)
    (hpairwise : row.Pairwise d.Before) : row = d.snapped :=
  List.Perm.eq_of_pairwise (fun _ _ _ _ hab hba => absurd hba hab.asymm) hpairwise
    (snapped_pairwise d) (hperm.trans (snapped_perm d).symm)

/-- Packing changes no width. -/
theorem widths_snapToGrid (d : Displays) (r : ℕ) :
    snapWidth ((snapToGrid d).object r) = snapWidth (d.object r) ∧
      drawnWidth ((snapToGrid d).object r) = drawnWidth (d.object r) ∧
        hitWidth ((snapToGrid d).object r) = hitWidth (d.object r) := by
  obtain ⟨x, y, h⟩ := pack_apply d.snapped 0 d.object r
  have h : (snapToGrid d).object r = { d.object r with x, y } := h
  rw [h]
  exact ⟨rfl, rfl, rfl⟩

/-- The widths of all enabled monitors but the last one of the row add up to an `int`. -/
def Displays.Fits (d : Displays) : Prop :=
  (d.snapped.dropLast.map fun r => snapWidth (d.object r)).sum < 2 ^ 31

/-- **The row that is made.** The monitors stand in the order of their positions, each where the one
before it ends, in the width with which it is packed, but for wrapping around. -/
theorem snapToGrid_row (d : Displays) :
    (∀ r ∈ d.snapped, ((snapToGrid d).object r).y = 0) ∧
      (∀ r ∈ d.snapped.head?, ((snapToGrid d).object r).x = 0) ∧
        d.snapped.IsChain fun a b => ((snapToGrid d).object b).x =
          wrap32 (((snapToGrid d).object a).x + snapWidth (d.object a)) :=
  pack_row ((snapped_perm d).nodup_iff.2 (d.nodup.filter _)) 0 d.object

/-- Nothing wraps around exactly if the widths fit. -/
theorem fits_iff (d : Displays) :
    d.snapped.IsChain ((snapToGrid d).Adjoins snapWidth) ↔ d.Fits := by
  obtain ⟨-, hx, hchain⟩ := snapToGrid_row d
  have hexact := isChain_exact_iff (fun r => (snapWidth_bounds d r).1) (by decide) hx hchain
  rw [zero_add] at hexact
  rw [Displays.Fits, ← hexact]
  refine iff_of_eq (congrArg (fun R => d.snapped.IsChain R) (funext fun a => funext fun b => ?_))
  rw [Displays.Adjoins, (widths_snapToGrid d a).1]

/-- The monitor has another one after it in the row. -/
def Displays.Inner (d : Displays) (a : ℕ) : Prop := a ∈ d.enabled ∧ ∃ b ∈ d.enabled, d.Before a b

/-- A monitor that is not the last one is followed by another one. -/
theorem inner_iff (d : Displays) (a : ℕ) :
    d.Inner a ↔ ∃ before b after, d.snapped = before ++ a :: b :: after := by
  constructor
  · rintro ⟨ha, b, hb, hab⟩
    obtain ⟨before, rest, hrest⟩ := List.append_of_mem ((snapped_perm d).mem_iff.2 ha)
    cases rest with
    | cons c after => exact ⟨before, c, after, hrest⟩
    | nil =>
      have hpairwise := snapped_pairwise d
      have hb := (snapped_perm d).mem_iff.2 hb
      rw [hrest] at hpairwise hb
      rcases List.mem_append.1 hb with hb | hb
      · have := (List.pairwise_append.1 hpairwise).2.2 b hb a List.mem_cons_self
        exact absurd hab this.asymm
      · obtain rfl := List.mem_singleton.1 hb
        exact absurd hab hab.asymm
  · rintro ⟨before, b, after, h⟩
    have hmem : ∀ r ∈ a :: b :: after, r ∈ d.enabled := fun r hr =>
      (snapped_perm d).mem_iff.1 (by rw [h]; exact List.mem_append_right _ hr)
    have hpairwise := snapped_pairwise d
    rw [h] at hpairwise
    exact ⟨hmem a (by simp), b, hmem b (by simp),
      (List.pairwise_cons.1 (List.pairwise_append.1 hpairwise).2.1).1 b (by simp)⟩

/-- A position that may have wrapped around is the one of a width only if it is the other width. -/
theorem eq_of_wrap32 {x v w : ℤ} (hv : 0 ≤ v ∧ v < 2 ^ 31) (hw : 0 ≤ w ∧ w < 2 ^ 31)
    (h : wrap32 (x + v) = x + w) : v = w := by
  rw [wrap32, Int.bmod_def] at h
  omega

/-- The widths that are drawn and hit fit the row, exactly if the ones within it do, and none of its
positions wraps around. -/
theorem isChain_iff (d : Displays) :
    (∀ width ∈ [drawnWidth, hitWidth], d.snapped.IsChain ((snapToGrid d).Adjoins width)) ↔
      (∀ a, d.Inner a → Straight (d.object a)) ∧ d.Fits := by
  have hsnapped := (snapToGrid_row d).2.2
  rw [List.isChain_iff_forall_rel_of_append_cons_cons] at hsnapped
  rw [← fits_iff, List.isChain_iff_forall_rel_of_append_cons_cons]
  constructor
  · intro h
    -- A position and the next one tell the width that is drawn, the one that is hit and the one
    -- that the row was packed with.
    have hwidths : ∀ width ∈ [drawnWidth, hitWidth], ∀ {a b before after},
        d.snapped = before ++ a :: b :: after → snapWidth (d.object a) = width (d.object a) := by
      intro width hwidth a b before after heq
      have hadjoins := List.isChain_iff_forall_rel_of_append_cons_cons.1 (h width hwidth) heq
      have hsame : width ((snapToGrid d).object a) = width (d.object a) := by
        obtain ⟨-, hd, hh⟩ := widths_snapToGrid d a
        rcases List.mem_pair.1 hwidth with rfl | rfl <;> assumption
      rw [Displays.Adjoins, hsame] at hadjoins
      exact eq_of_wrap32 (snapWidth_bounds d a) (width_bounds d hwidth a)
        ((hsnapped heq).symm.trans hadjoins)
    refine ⟨fun a ha => ?_, fun a b before after heq => ?_⟩
    · obtain ⟨before, b, after, heq⟩ := (inner_iff d a).1 ha
      exact (straight_iff _).2 ⟨hwidths _ (by simp) heq, hwidths _ (by simp) heq⟩
    · have hadjoins :=
        List.isChain_iff_forall_rel_of_append_cons_cons.1 (h drawnWidth (by simp)) heq
      obtain ⟨hs, hd, -⟩ := widths_snapToGrid d a
      rw [Displays.Adjoins, hd, ← hwidths drawnWidth (by simp) heq] at hadjoins
      rw [Displays.Adjoins, hs, hadjoins]
  · rintro ⟨h, hexact⟩ width hwidth
    rw [List.isChain_iff_forall_rel_of_append_cons_cons]
    intro a b before after heq
    obtain ⟨hdrawn, hhit⟩ := (straight_iff _).1 (h a ((inner_iff d a).2 ⟨before, b, after, heq⟩))
    have hsnap := hexact heq
    obtain ⟨hs, hd, hh⟩ := widths_snapToGrid d a
    rw [Displays.Adjoins] at hsnap ⊢
    rcases List.mem_pair.1 hwidth with rfl | rfl <;> omega

/-- **When the displays are packed as they are drawn.** The row has neither gaps nor overlaps
exactly if every display that has another one after it is not turned by a quarter, or is as wide as
it is high, and the widths fit in an `int`. -/
theorem packed_snapToGrid_iff (d : Displays) : Packed d (snapToGrid d) ↔
    (∀ a, d.Inner a → Straight (d.object a)) ∧ d.Fits := by
  rw [← isChain_iff]
  constructor
  · intro h
    obtain ⟨row, hperm, hpairwise, -, -, hchain⟩ := h.row
    rwa [eq_snapped hperm hpairwise] at hchain
  · intro h
    obtain ⟨hy, hx, -⟩ := snapToGrid_row d
    have hmem : ∀ {r}, r ∈ d.enabled → r ∈ d.snapped := (snapped_perm d).mem_iff.2
    refine
      { monitors := rfl
        moved := pack_apply _ 0 d.object
        still := fun r hr =>
          pack_of_notMem (fun hin => hr ((snapped_perm d).mem_iff.1 hin)) 0 d.object
        row := ⟨d.snapped, snapped_perm d, snapped_pairwise d, hy, hx, h⟩
        apart := fun width hwidth a ha b hb hne =>
          apart_of_adjoins (fun r => (width_bounds _ hwidth r).1) (h width hwidth) (hmem ha)
            (hmem hb) hne
        covered := ?_ }
    rintro width hwidth x hx0 ⟨a, ha, hlt⟩
    have hchain := h width hwidth
    have ha := hmem ha
    generalize hrow : d.snapped = row at *
    cases row with
    | nil => cases ha
    | cons r row =>
      obtain ⟨b, hb, hholds⟩ := covered_of_adjoins hchain (by rw [hx r rfl]; exact hx0) ha hlt
      exact ⟨b, (snapped_perm d).mem_iff.1 (hrow ▸ hb), hholds⟩

/-! ### A display on its side -/

/-- Two displays of 1920 by 1080, the first of which is turned by a quarter. -/
def onItsSide : Displays where
  monitors := [0, 1]
  object r :=
    { headHandle := .head r
      x := 2000 * r
      transform := if r = 0 then 1 else 0
      currentMode := some ⟨1920, 1080, 60000, true⟩ }
  nodup := by decide
  sized := by
    rintro r mode h
    obtain rfl := Option.some.inj h
    decide

/-- There is a gap between a display on its side and the one after it. -/
theorem not_packed_onItsSide : ¬Packed onItsSide (snapToGrid onItsSide) := by
  intro h
  obtain ⟨a, ha, hholds⟩ :=
    h.covered drawnWidth (by simp) 1500 (by decide) ⟨1, by decide, by decide⟩
  have ha : a = 0 ∨ a = 1 := List.mem_pair.1 (List.mem_filter.1 ha).1
  rcases ha with rfl | rfl
  · exact absurd hholds.2 (by decide)
  · exact absurd hholds.1 (by decide)

end MonitorPreview

end SingularityShell
