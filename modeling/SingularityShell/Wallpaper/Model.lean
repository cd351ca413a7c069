import SingularityShell.Lib.Ascii
import SingularityShell.Lib.Binary64
import SingularityShell.Lib.Machine

/-!
# Dynamic wallpapers

A wallpaper of several images, the schedule that a day has with it, and the image of a moment.

## Main definitions

* `Wallpaper.Frame`, `Wallpaper.Segment`, `Wallpaper` — the data
* `Wallpaper.daySchedule` — the segments of a day
* `Wallpaper.evaluate` — what is shown at a moment
-/

namespace SingularityShell

open Ascii Binary64 Machine

inductive Wallpaper.Kind where
  | time
  | solar
  | appearance
  | cycle
  deriving DecidableEq

structure Wallpaper.Frame where
  image : Text
  elevation : Double := .nan
  rising : Bool := true
  timeSeconds : ℤ := -1
  deriving DecidableEq

structure Wallpaper.Segment where
  start : ℤ
  duration : ℤ
  fromImage : Text
  toImage : Text
  deriving DecidableEq

def Wallpaper.Segment.isTransition (s : Wallpaper.Segment) : Bool := s.fromImage ≠ s.toImage

/-- What is shown at a moment: two images and how far the second has come. -/
structure Wallpaper.State where
  fromImage : Text
  toImage : Text
  progress : ℚ
  secondsToChange : ℤ := -1
  deriving DecidableEq

structure Wallpaper where
  path : Text := []
  name : Text := []
  kind : Wallpaper.Kind := .time
  preview : Text := []
  light : Text := []
  dark : Text := []
  transition : ℤ := 2700
  frames : List Wallpaper.Frame := []
  cycle : List Wallpaper.Segment := []
  deriving DecidableEq

namespace Wallpaper

/-- Seconds in a day. -/
def day : ℤ := 86400

/-- A day at a place: when the sun is at an elevation, rising or setting, in seconds after
midnight. -/
structure Place where
  haveLocation : Bool
  timeForElevation : Double → Bool → ℤ

/-- The remainder that the program takes is never negative. -/
theorem tmod_add_tmod (a : ℤ) {n : ℤ} (hn : 0 < n) : (a.tmod n + n).tmod n = a % n := by
  have hlow := Int.lt_tmod_of_pos a hn
  rw [Int.tmod_eq_emod_of_nonneg (by omega), Int.add_emod_right, Int.tmod_def,
    Int.sub_mul_emod_self_left]

/-! ### The schedule of a day -/

/-- The time of frame `i` of `n`: that of the sun, the one that it names, or its share of the
day. -/
def frameTime (kind : Kind) (place : Place) (n i : ℕ) (frame : Frame) : ℤ :=
  let t :=
    if kind = .solar ∧ place.haveLocation ∧ !frame.elevation.isNan then
      place.timeForElevation frame.elevation frame.rising
    else -1
  let t := if t < 0 then frame.timeSeconds else t
  let t := if t < 0 then (day * i).tdiv (max 1 n) else t
  (t.tmod day + day).tmod day

/-- The frames with their times, in the order of the manifest. -/
def assigned (wp : Wallpaper) (place : Place) : List (ℤ × Frame) :=
  wp.frames.zipIdx.map fun f => (frameTime wp.kind place wp.frames.length f.2 f.1, f.1)

/-- A frame is inserted after those that are not later. -/
def insertTimed (timed : List (ℤ × Frame)) (f : ℤ × Frame) : List (ℤ × Frame) :=
  timed.takeWhile (·.1 ≤ f.1) ++ f :: timed.dropWhile (·.1 ≤ f.1)

def timed (wp : Wallpaper) (place : Place) : List (ℤ × Frame) :=
  (wp.assigned place).foldl insertTimed []

/-- The time from a frame to the next, `m` being the number of frames. -/
def gap (m : ℕ) (f next : ℤ × Frame) : ℤ :=
  if m = 1 then day else ((next.1 - f.1).tmod day + day).tmod day

/-- The still and the transition at the end of it that lead from a frame to the next. -/
def segmentsOf (m : ℕ) (transition : ℤ) (f next : ℤ × Frame) : List Segment :=
  let gap := gap m f next
  if gap = 0 ∧ m > 1 then []
  else
    let trans := if m = 1 then 0 else min transition (gap.tdiv 2)
    let img := f.2.image
    let nextImg := next.2.image
    let trans := if img = nextImg then 0 else trans
    (if gap - trans > 0 then [⟨f.1, gap - trans, img, img⟩] else []) ++
      if trans > 0 then [⟨f.1 + gap - trans, trans, img, nextImg⟩] else []

/-- The segments of a day. After frame `i` comes frame `(i + 1) % m`. -/
def daySchedule (wp : Wallpaper) (place : Place) : List Segment :=
  let timed := wp.timed place
  (timed.zip (timed.rotate 1)).flatMap fun f => segmentsOf timed.length wp.transition f.1 f.2

/-! ### A moment -/

/-- `clamp(0.0, 1.0)` -/
def clampUnit (x : ℚ) : ℚ := if 1 < x then 1 else if x < 0 then 0 else x

def Segment.state (s : Segment) (into : ℤ) : State :=
  if !s.isTransition then ⟨s.fromImage, s.fromImage, 0, wrap64 (s.duration - into)⟩
  else ⟨s.fromImage, s.toImage, clampUnit (fl (fl into / fl s.duration)), 1⟩

/-- The loop over the segments, `cursor` being the sum of the durations so far. -/
def seek (x cursor : ℤ) : List Segment → Option State
  | [] => none
  | s :: segs =>
    if x < wrap64 (cursor + s.duration) then some (s.state (wrap64 (x - cursor)))
    else seek x (wrap64 (cursor + s.duration)) segs

/-- The sum of the durations, as the loop of `evaluate_cycle` has it. -/
def sumDurations (segs : List Segment) : ℤ :=
  segs.foldl (fun total s => wrap64 (total + s.duration)) 0

def evaluateCycle (segs : List Segment) (offset : ℤ) : State :=
  match segs with
  | [] => { fromImage := [], toImage := [], progress := 0 }
  | first :: rest =>
    let total := sumDurations (first :: rest)
    if total ≤ 0 then { fromImage := first.fromImage, toImage := first.fromImage, progress := 0 }
    else
      let x := (wrap64 ((wrap64 (offset - first.start)).tmod total + total)).tmod total
      match seek x 0 (first :: rest) with
      | some st => st
      | none =>
        let last := (first :: rest).getLast (List.cons_ne_nil _ _)
        { fromImage := last.toImage, toImage := last.toImage, progress := 0 }

/-- The image of a moment, given in seconds after midnight and after the anchor of the cycle. -/
def evaluate (wp : Wallpaper) (place : Place) (darkMode : Bool) (sinceMidnight sinceAnchor : ℤ) :
    State :=
  match wp.kind with
  | .appearance =>
    let img := if darkMode then (if wp.dark ≠ [] then wp.dark else wp.light)
      else if wp.light ≠ [] then wp.light else wp.dark
    { fromImage := img, toImage := img, progress := 0 }
  | .cycle => evaluateCycle wp.cycle sinceAnchor
  | _ => evaluateCycle (wp.daySchedule place) sinceMidnight

end Wallpaper

end SingularityShell
