import SingularityShell.Lib.Json
import SingularityShell.Lib.Machine
import SingularityShell.Lib.Numeral
import SingularityShell.Lib.Path
import SingularityShell.Wallpaper.Model

/-!
# Manifests of wallpapers

A wallpaper is stored as a JSON object, with the names of its images relative to the directory of
the manifest and its times in hours and minutes.

## Main definitions

* `Wallpaper.Library` — what the program relies on
* `Wallpaper.parseClock`, `Wallpaper.formatClock` — times of the day
* `Wallpaper.fromJson`, `Wallpaper.toJson` — reading and writing a manifest -/

namespace SingularityShell

open Ascii Binary64 Machine SingularityShell.Path

namespace Wallpaper

/-- The libraries of the program: the getters of JSON nodes, which return what was put into a node,
the local path of a URI, which is empty or canonical, the working directory, and what the compiler
makes of a number that does not fit in an integer. -/
structure Library where
  getString : Json → Text
  getInt : Json → ℤ
  getDouble : Json → Double
  getElements : Json → List Json
  uriPath : Text → Text
  cwd : Text
  undefined : ℕ → Double → ℤ
  getString_string : ∀ text, getString (.string text) = text
  getInt_int : ∀ n, getInt (.int n) = n
  getDouble_double : ∀ x, getDouble (.double x) = x
  getElements_array : ∀ elements, getElements (.array elements) = elements
  uriPath_canonical : ∀ uri, uriPath uri = [] ∨ canonicalize (uriPath uri) = uriPath uri

/-! ### Times of the day -/

/-- `string.split(":")`, which gives no part for an empty string. -/
def splitColon (text : Text) : List Text := if text = [] then [] else text.splitOn 58

/-- The loop over the parts of a time, with the limit and the unit of each. `int.parse` is
`atoi`. -/
def parseParts : List Text → List (ℤ × ℤ) → ℤ → ℤ
  | [], _, total => total
  | _ :: _, [], _ => -1
  | part :: parts, (limit, unit) :: units, total =>
    if part = [] ∨ ¬part.all isDigit then -1
    else if Numeral.atoi part ≥ limit then -1
    else parseParts parts units (wrap32 (total + wrap32 (Numeral.atoi part * unit)))

/-- `parse_clock` -/
def parseClock (text : Text) : ℤ :=
  let parts := splitColon (strip text)
  if parts.length < 2 ∨ parts.length > 3 then -1
  else parseParts parts [(24, 3600), (60, 60), (60, 1)] 0

/-- `format_clock` -/
def formatClock (seconds : ℤ) : Text :=
  let seconds := ((seconds.tmod day + day).tmod day).toNat
  padded 2 (seconds / 3600) ++ 58 :: padded 2 (seconds / 60 % 60)

/-! ### Names of files -/

variable (lib : Library)

/-- `resolve` -/
def resolve (baseDir file : Text) : Text :=
  if file = [] then []
  else if (ofString "file://").isPrefixOf file then lib.uriPath file
  else if isAbsolute file then file
  else canonicalizeIn lib.cwd (buildFilename baseDir file)

/-- `relative` -/
def relative (dir file : Text) : Text :=
  if dir ≠ [] ∧ (dir ++ [47]).isPrefixOf file then file.drop (dir.length + 1) else file

/-! ### Reading -/

/-- `to_token` -/
def Kind.toToken : Kind → Text
  | .solar => ofString "solar"
  | .appearance => ofString "appearance"
  | .cycle => ofString "cycle"
  | .time => ofString "time"

/-- `from_token` -/
def Kind.fromToken (token : Text) : Kind :=
  if token = ofString "solar" then .solar
  else if token = ofString "appearance" then .appearance
  else if token = ofString "cycle" then .cycle
  else .time

/-- The string of a member, which is empty when there is none. -/
def stringMember (members : List (Text × Json)) (key : String) : Text :=
  match members.lookup (ofString key) with
  | some node => lib.getString node
  | none => []

/-- An element of the array of frames, unless it is no object or has no image. -/
def frameFromJson (dir : Text) (node : Json) : Option Frame :=
  match node with
  | .object f =>
    let image := resolve lib dir (stringMember lib f "image")
    if image = [] then none
    else some
      { image
        elevation := match f.lookup (ofString "elevation") with
          | some node => (lib.getDouble node).clamp (-90) 90
          | none => .nan
        rising := match f.lookup (ofString "phase") with
          | some node => lib.getString node ≠ ofString "setting"
          | none => true
        timeSeconds := match f.lookup (ofString "time") with
          | some node => parseClock (lib.getString node)
          | none => -1 }
  | _ => none

/-- `clamp(0, DAY / 2)` -/
def clampTransition (n : ℤ) : ℤ := if n > day / 2 then day / 2 else if n < 0 then 0 else n

/-- The wallpaper of a manifest, before it is checked. -/
def readJson (obj : List (Text × Json)) (path : Text) : Wallpaper :=
  let dir := dirname path
  let frames := match obj.lookup (ofString "frames") with
    | some node => (lib.getElements node).filterMap (frameFromJson lib dir)
    | none => []
  let token := stringMember lib obj "kind"
  { path, frames
    name := stringMember lib obj "name"
    kind := if token ≠ [] then .fromToken token else if frames = [] then .appearance else .time
    preview := resolve lib dir (stringMember lib obj "preview")
    light := resolve lib dir (stringMember lib obj "light")
    dark := resolve lib dir (stringMember lib obj "dark")
    transition := match obj.lookup (ofString "transition") with
      | some node => clampTransition (lib.getInt node)
      | none => 2700 }

/-- `from_json` -/
def fromJson (obj : List (Text × Json)) (path : Text) : Except String Wallpaper :=
  if (obj.lookup (ofString "version")).any (lib.getInt · > 1) then
    .error "Unsupported manifest version"
  else
    let wp := readJson lib obj path
    if wp.kind = .appearance then
      if wp.light = [] ∧ wp.dark = [] then .error "Appearance wallpaper needs light or dark"
      else .ok wp
    else if wp.frames = [] then .error "Manifest has no frames"
    else .ok wp

/-! ### Writing -/

/-- A member that is written when a condition holds. -/
def member (cond : Prop) [Decidable cond] (key : String) (val : Json) : List (Text × Json) :=
  if cond then [(ofString key, val)] else []

def frameToJson (dir : Text) (f : Frame) : Json :=
  .object (member True "image" (.string (relative dir f.image)) ++
    member (!f.elevation.isNan) "elevation" (.double f.elevation) ++
    member (!f.elevation.isNan) "phase"
      (.string (if f.rising then ofString "rising" else ofString "setting")) ++
    member (f.timeSeconds ≥ 0) "time" (.string (formatClock f.timeSeconds)))

/-- `to_json` -/
def toJson (wp : Wallpaper) : List (Text × Json) :=
  let dir := if wp.path ≠ [] then dirname wp.path else []
  member True "version" (.int 1) ++ member (wp.name ≠ []) "name" (.string wp.name) ++
    member True "kind" (.string wp.kind.toToken) ++
    member (wp.preview ≠ []) "preview" (.string (relative dir wp.preview)) ++
    member (wp.light ≠ []) "light" (.string (relative dir wp.light)) ++
    member (wp.dark ≠ []) "dark" (.string (relative dir wp.dark)) ++
    member (wp.frames ≠ []) "transition" (.int wp.transition) ++
    member (wp.frames ≠ []) "frames" (.array (wp.frames.map (frameToJson dir)))

end Wallpaper

end SingularityShell
