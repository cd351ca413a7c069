import SingularityShell.Lib.Transition
import SingularityShell.Wallpaper.Model

/-!
# The controller of the dynamic wallpapers

The user chooses a picture or a dynamic wallpaper with two settings, and the controller shows the
image of the moment with the first of them, which it writes as the user does. It hears of changes
only later, in the order in which they were made, and blends of two images are rendered by threads
that finish at any time.

## Main definitions

* `Wallpaper.Controller.State` — the settings, the fields of the controller, and what is outstanding
* `Wallpaper.Controller.step` — the events
* `Wallpaper.Controller.Wins` — the choice of the user is in effect once nothing is outstanding
* `Wallpaper.Controller.Write.Ok` — a picture is written for the last choice
-/

namespace SingularityShell

namespace Wallpaper

open Ascii Binary64

/-! ### States in steps -/

/-- `is_blend` -/
def State.isBlend (st : State) : Bool :=
  st.fromImage ≠ st.toImage && 0 < st.progress && st.progress < 1

/-- `single_image` -/
def State.singleImage (st : State) : Text :=
  if 1 / 2 ≤ st.progress then st.toImage else st.fromImage

/-- `quantized`, the progress not being negative when it is rounded. -/
def State.quantized (steps : ℤ) (st : State) : State :=
  if st.fromImage = st.toImage ∨ steps ≤ 1 then ⟨st.fromImage, st.fromImage, 0, st.secondsToChange⟩
  else
    let step := ⌊fl (st.progress * steps) + 1 / 2⌋
    if step ≤ 0 then ⟨st.fromImage, st.fromImage, 0, st.secondsToChange⟩
    else if step ≥ steps then ⟨st.toImage, st.toImage, 0, st.secondsToChange⟩
    else ⟨st.fromImage, st.toImage, clampUnit (fl (step / steps)), st.secondsToChange⟩

/-- `preview_image` -/
def previewImage (wp : Wallpaper) (darkMode : Bool) : Text :=
  if wp.preview ≠ [] then wp.preview
  else if wp.kind = .appearance then
    if darkMode ∧ wp.dark ≠ [] then wp.dark else if wp.light ≠ [] then wp.light else wp.dark
  else
    match wp.frames, wp.cycle with
    | frame :: _, _ => frame.image
    | [], segment :: _ => segment.fromImage
    | [], [] => if wp.light ≠ [] then wp.light else wp.dark

/-- `images`, which drops repetitions. -/
def images (wp : Wallpaper) : List Text :=
  let list := wp.frames.map Frame.image ++ wp.cycle.flatMap fun s => [s.fromImage, s.toImage]
  let list := if wp.light ≠ [] then list ++ [wp.light] else list
  (if wp.dark ≠ [] then list ++ [wp.dark] else list).eraseDups

namespace Controller

/-! ### The state -/

/-- The files: the local path of a URI and the URI of a path, the wallpapers that can be loaded, the
cache, and the start of the checksum of a state. -/
structure Library where
  pathOf : Text → Option Text
  uriOf : Text → Text
  isDynamicPath : Text → Bool
  load : Text → Option Wallpaper
  cacheDir : Text
  digest : Wallpaper.State → Text

/-- The moment of an event, and the blends that are in the cache. -/
structure Env where
  place : Place
  darkMode : Bool
  sinceMidnight : ℤ
  sinceAnchor : ℤ
  cached : Text → Bool

/-- The two settings. -/
inductive Key where
  | picture
  | dynamic
  deriving DecidableEq

/-- A value that the user sets, and whether it is an output of the controller then. -/
structure Choice where
  key : Key
  value : Text
  ownOutput : Bool
  deriving DecidableEq

/-- A picture that the controller writes, with the last choice and whether the controller has
reacted to it. -/
structure Write where
  choice : Option Choice
  heard : Bool
  uri : Text

/-- A blend that a thread renders. -/
structure Render where
  serial : ℕ
  state : Wallpaper.State

structure State where
  /-- `background-picture-uri` -/
  picture : Text
  /-- `background-dynamic-uri` -/
  dynamic : Text
  current : Option Wallpaper := none
  lastWritten : Text := []
  loadedUri : Text := []
  /-- An `int`, for which a render would have to run while `2 ^ 32` later ones begin to be taken for
  the last one. -/
  renderSerial : ℕ := 0
  pendingTarget : Text := []
  /-- The deferred reactions to changes of the settings. -/
  idle : List Key := []
  renders : List Render := []
  choice : Option Choice := none
  heard : Bool := false
  written : List Write := []

variable (lib : Library)

/-- The path of a blend in the cache. -/
def target (st : Wallpaper.State) : Text :=
  lib.cacheDir ++ ofString "/blend-" ++ lib.digest st ++ ofString ".png"

/-- `is_dynamic_uri` -/
def isDynamicUri (uri : Text) : Bool :=
  uri ≠ [] &&
    match lib.pathOf uri with
    | none => false
    | some path => lib.isDynamicPath path

/-- The wallpaper that `load_active` loads for a value of the second setting. -/
def loadUri (uri : Text) : Option Wallpaper :=
  if uri = [] then none else lib.load ((lib.pathOf uri).getD [])

/-- `is_our_output` -/
def isOurOutput (s : State) (uri : Text) : Bool :=
  uri = s.lastWritten ||
    match lib.pathOf uri with
    | none => false
    | some path =>
      (lib.cacheDir ++ [47]).isPrefixOf path ||
        match s.current with
        | none => false
        | some wp => path ∈ wp.images

/-! ### The controller -/

/-- `write_uri` -/
def writeUri (uri : Text) (s : State) : State :=
  if s.picture = uri then { s with lastWritten := uri }
  else
    { s with
      lastWritten := uri
      picture := uri
      idle := s.idle ++ [.picture]
      written := s.written ++ [⟨s.choice, s.heard, uri⟩] }

/-- The state that `refresh` shows: the one of the moment in steps, or the preview. -/
def shown (env : Env) (wp : Wallpaper) : Wallpaper.State :=
  let st := (wp.evaluate env.place env.darkMode env.sinceMidnight env.sinceAnchor).quantized 12
  if st.fromImage = [] then
    let img := wp.previewImage env.darkMode
    { fromImage := img, toImage := img, progress := 0 }
  else st

/-- The picture that `refresh` writes at once, unless a blend has to be rendered. -/
def immediate (env : Env) (wp : Wallpaper) : Option Text :=
  let st := shown env wp
  if !st.isBlend then some (lib.uriOf st.singleImage)
  else if env.cached (target lib st) then some (lib.uriOf (target lib st))
  else none

/-- `refresh` -/
def refresh (env : Env) (s : State) : State :=
  match s.current with
  | none => s
  | some wp =>
    match immediate lib env wp with
    | some uri =>
      writeUri uri { s with renderSerial := s.renderSerial + 1, pendingTarget := [] }
    | none =>
      let st := shown env wp
      if target lib st = s.pendingTarget then s
      else
        { s with
          pendingTarget := target lib st
          renderSerial := s.renderSerial + 1
          renders := s.renders ++ [⟨s.renderSerial + 1, st⟩] }

/-- `load_active`. A wallpaper that is loaded is not loaded again. -/
def loadActive (env : Env) (s : State) : State :=
  let uri := s.dynamic
  if uri = [] then
    { s with current := none, loadedUri := [], renderSerial := s.renderSerial + 1 }
  else if uri ≠ s.loadedUri ∨ s.current.isNone then
    match loadUri lib uri with
    | some wp => refresh lib env { s with current := some wp, loadedUri := uri }
    | none => { s with current := none, loadedUri := [] }
  else refresh lib env s

/-- `on_picture_changed` -/
def onPictureChanged (env : Env) (s : State) : State :=
  let uri := s.picture
  if uri = s.lastWritten then s
  else if isDynamicUri lib uri then
    if s.dynamic ≠ uri then { s with dynamic := uri, idle := s.idle ++ [.dynamic] }
    else loadActive lib env s
  else if s.dynamic ≠ [] ∧ !isOurOutput lib s uri then
    { s with dynamic := [], idle := s.idle ++ [.dynamic] }
  else s

/-- A thread has rendered a blend, or could not. -/
def rendered (r : Render) (ok : Bool) (s : State) : State :=
  let s := if s.pendingTarget = target lib r.state then { s with pendingTarget := [] } else s
  if r.serial ≠ s.renderSerial then s
  else if ok then writeUri (lib.uriOf (target lib r.state)) s
  else writeUri (lib.uriOf r.state.singleImage) s

/-- The constructor, with the settings as they are. -/
def start (env : Env) (picture dynamic : Text) : State :=
  onPictureChanged lib env (loadActive lib env { picture, dynamic })

/-! ### Events -/

inductive Event where
  /-- The user sets a key, which is signalled. -/
  | pick (key : Key) (value : Text)
  /-- The first of the deferred reactions. -/
  | react (env : Env)
  /-- A tick, or a change of the theme or of the coordinates. -/
  | refresh (env : Env)
  /-- The render with a serial is finished. -/
  | rendered (serial : ℕ) (ok : Bool)

/-- The user sets a key. -/
def pick (key : Key) (value : Text) (s : State) : State :=
  let s := { s with
    choice := some ⟨key, value, isOurOutput lib s value⟩
    heard := false
    idle := s.idle ++ [key] }
  match key with
  | .picture => { s with picture := value }
  | .dynamic => { s with dynamic := value }

/-- The controller reacts to changes of a key. -/
def hear (key : Key) (rest : List Key) (s : State) : State :=
  { s with
    idle := rest
    heard := s.heard || (s.choice.map Choice.key == some key) }

def step (s : State) : Event → State
  | .pick key value => pick lib key value s
  | .react env =>
    match s.idle with
    | [] => s
    | .picture :: rest => onPictureChanged lib env (hear .picture rest s)
    | .dynamic :: rest => loadActive lib env (hear .dynamic rest s)
  | .refresh env => refresh lib env s
  | .rendered serial ok =>
    match s.renders.find? (·.serial = serial) with
    | none => s
    | some r => rendered lib r ok { s with renders := s.renders.filter (·.serial ≠ serial) }

/-- The state after the events, from a start of the controller. -/
def run (env : Env) (picture dynamic : Text) (events : List Event) : State :=
  Transition.run (step lib) (start lib env picture dynamic) events

/-! ### The property -/

/-- A picture that is neither dynamic nor an output of the controller. -/
def Choice.IsPicture (c : Choice) : Prop :=
  c.key = .picture ∧ isDynamicUri lib c.value = false ∧ c.ownOutput = false

/-- A dynamic wallpaper. -/
def Choice.Selects (c : Choice) : Prop := c.key = .dynamic ∨ isDynamicUri lib c.value = true

/-- An image of a wallpaper, or its preview. -/
def IsImage (wp : Wallpaper) (img : Text) : Prop :=
  img ∈ wp.images ∨ ∃ darkMode, img = wp.previewImage darkMode

/-- An image, a blend or a fallback of a wallpaper. -/
inductive Shows (wp : Wallpaper) : Text → Prop
  | image {img : Text} (h : IsImage wp img) : Shows wp (lib.uriOf img)
  | blend {st : Wallpaper.State} (hfrom : IsImage wp st.fromImage) (hto : IsImage wp st.toImage) :
    Shows wp (lib.uriOf (target lib st))

/-- Once nothing is outstanding, the last choice is in effect. -/
def Wins (s : State) : Prop :=
  s.idle = [] → s.renders = [] → ∀ c, s.choice = some c →
    (c.IsPicture lib → s.picture = c.value ∧ s.dynamic = []) ∧
      (c.Selects lib → ∀ wp, loadUri lib c.value = some wp →
        s.dynamic = c.value ∧ Shows lib wp s.picture)

/-- A picture is written after the reaction to a choice only if a wallpaper is chosen, and it is one
of that wallpaper. -/
def Write.Ok (m : Write) : Prop :=
  m.heard = true → ∀ c, m.choice = some c →
    ¬c.IsPicture lib ∧
      (c.Selects lib → ∃ wp, loadUri lib c.value = some wp ∧ Shows lib wp m.uri)

end Controller

end Wallpaper

end SingularityShell
