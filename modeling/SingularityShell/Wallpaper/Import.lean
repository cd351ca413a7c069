import SingularityShell.Plist.Model
import SingularityShell.Wallpaper.Manifest

/-!
# Wallpapers from the metadata of pictures

A wallpaper is built from the property list in the metadata of an imported picture, which refers to
the images of the picture by their numbers.

## Main definitions

* `Wallpaper.Metadata` — the property lists of a picture
* `Wallpaper.toWallpaper` — the wallpaper of a picture
-/

namespace SingularityShell

open Ascii Binary64

/-- `PlistValue.number` -/
def Plist.Value.number : Plist.Value → Double
  | .real x => x
  | .int n => .num (fl n)
  | .bool b => .num (if b then 1 else 0)
  | _ => .nan

/-- `PlistValue.get` -/
def Plist.Value.get (v : Plist.Value) (key : String) : Option Plist.Value :=
  match v with
  | .dict members => members.lookup (ofString key)
  | _ => none

namespace Wallpaper

/-- The texts in the metadata of a picture, of which those that are missing are empty. -/
structure Metadata where
  solar : Text := []
  h24 : Text := []
  apr : Text := []

variable (lib : Library) (base64 : Text → Plist.Data) (framePaths : List Text)

/-- `decode` -/
def decode (text : Text) : Except Plist.Stop Plist.Value := (Plist.parse (base64 text)).result

/-- `number_of` -/
def numberOf (entry : Plist.Value) (key : String) : Double :=
  match entry.get key with
  | some v => v.number
  | none => .nan

/-- The image with a number, unless there is none. -/
def framePath (number : Double) : Option Text :=
  let i := number.toInt lib.undefined 32
  if i < 0 then none else framePaths[i.toNat]?

def solarFrame (entry : Plist.Value) : Option Frame :=
  (framePath lib framePaths (numberOf entry "i")).map fun image =>
    let azimuth := numberOf entry "z"
    { image, elevation := numberOf entry "a", rising := azimuth.isNan || azimuth.lt 180 }

/-- A time is a share of the day, which is rounded to seconds. -/
def timeFrame (entry : Plist.Value) : Option Frame :=
  (framePath lib framePaths (numberOf entry "i")).map fun image =>
    let t := (((numberOf entry "t").clamp 0 1).scale day).round
    { image, timeSeconds := (t.toInt lib.undefined 64).tmod day }

/-- The image of a number, where a NaN refers to none. -/
def appearanceImage (number : Double) (image : Text) : Text :=
  if number.isNan then image else (framePath lib framePaths number).getD image

/-- `apply_appearance` -/
def applyAppearance (wp : Wallpaper) (ap : Option Plist.Value) : Wallpaper :=
  match ap with
  | none => wp
  | some ap =>
    let light := appearanceImage lib framePaths (numberOf ap "l") wp.light
    let dark := appearanceImage lib framePaths (numberOf ap "d") wp.dark
    { wp with light, dark, preview := if light ≠ [] then light else wp.preview }

/-- The list under a key. -/
def entries (root : Plist.Value) (key message : String) : Except Plist.Stop (List Plist.Value) :=
  match root.get key with
  | some (.array items) => .ok items
  | _ => .error (.thrown message)

/-- The wallpaper of a picture, before it is checked. -/
def readMetadata (metadata : Metadata) : Except Plist.Stop Wallpaper :=
  if metadata.solar ≠ [] then do
    let root ← decode base64 metadata.solar
    let list ← entries root "si" "Solar metadata has no entries"
    let frames := list.filterMap (solarFrame lib framePaths)
    pure (applyAppearance lib framePaths { kind := .solar, frames } (root.get "ap"))
  else if metadata.h24 ≠ [] then do
    let root ← decode base64 metadata.h24
    let list ← entries root "ti" "Time metadata has no entries"
    let frames := list.filterMap (timeFrame lib framePaths)
    pure (applyAppearance lib framePaths { kind := .time, frames } (root.get "ap"))
  else if metadata.apr ≠ [] then do
    let root ← decode base64 metadata.apr
    pure (applyAppearance lib framePaths { kind := .appearance } (some root))
  else .error (.thrown "No dynamic desktop metadata")

/-- `to_wallpaper` -/
def toWallpaper (metadata : Metadata) : Except Plist.Stop Wallpaper := do
  let wp ← readMetadata lib base64 framePaths metadata
  if wp.kind ≠ .appearance ∧ wp.frames = [] then
    throw (.thrown "Metadata refers to no decoded frame")
  else if wp.kind = .appearance ∧ wp.light = [] ∧ wp.dark = [] then
    throw (.thrown "Appearance metadata refers to no decoded frame")
  else pure wp

end Wallpaper

end SingularityShell
