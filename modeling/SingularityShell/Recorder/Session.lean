import Mathlib.Logic.Function.Basic
import SingularityShell.Lib.Path
import SingularityShell.Lib.Transition
import SingularityShell.Lib.Utf8

/-!
# The parent of the recorder

`ScreenRecorder` starts the recorder process, reads the lines that it prints, stops it, and tells
the shell what has become of the recording. The last line and the exit of the process come by two
ways, and the main loop delivers them in any order.

## Main definitions

* `ScreenRecorder.Session` — what a start has led to
* `ScreenRecorder.State` — the variables, and the sessions
* `ScreenRecorder.handleStatus`, `ScreenRecorder.onExit` — a line, and the exit of a process
* `ScreenRecorder.step` — one call, or one thing that the main loop delivers
-/

namespace SingularityShell

namespace ScreenRecorder

open Ascii

inductive Signal where
  | finished (path : Text) (warnings : List Text)
  | failed (message : Text)
  deriving DecidableEq

/-- What a start that found no process has led to. -/
structure Session where
  /-- the lines that the process has printed -/
  printed : List Text := []
  /-- how many of them the main loop has delivered -/
  read : ℕ := 0
  signals : List Signal := []
  /-- the kill timer has fired when nothing had been reported -/
  killed : Bool := false
  deriving DecidableEq

/-- A process is known by the number of its session. -/
structure State where
  proc : Option ℕ := none
  /-- the process that the timer of `_kill_id` was set for -/
  killTimer : Option ℕ := none
  warnings : List Text := []
  reported : Bool := false
  outputPath : Option Text := none
  recording : Bool := false
  /-- the number of starts that found no process -/
  session : ℕ := 0
  sessions : ℕ → Session := fun _ => {}
  /-- files that were unlinked after a process had announced that they are saved -/
  lost : List Text := []

/-! ### Lines -/

def verb (line : Text) : Text := line.takeWhile (· ≠ 32)

def rest (line : Text) : Text := (line.dropWhile (· ≠ 32)).tail

def IsSaved (line : Text) : Prop := verb line = ofString "saved"

def IsCancelled (line : Text) : Prop := verb line = ofString "cancelled"

/-- A line after which a recorder prints nothing. -/
def IsLast (line : Text) : Prop :=
  IsSaved line ∨ verb line = ofString "error" ∨ IsCancelled line

instance (line : Text) : Decidable (IsSaved line) := inferInstanceAs (Decidable (_ = _))

instance (line : Text) : Decidable (IsCancelled line) := inferInstanceAs (Decidable (_ = _))

instance (line : Text) : Decidable (IsLast line) := inferInstanceAs (Decidable (_ ∨ _ ∨ _))

/-- The warnings that were printed. -/
def warningsOf (lines : List Text) : List Text :=
  (lines.filter fun line => verb line = ofString "warning").map rest

/-! ### The methods -/

/-- A session is changed. -/
def State.modify (k : ℕ) (f : Session → Session) (s : State) : State :=
  { s with sessions := Function.update s.sessions k (f (s.sessions k)) }

def emit (signal : Signal) (s : State) : State :=
  s.modify s.session fun session => { session with signals := session.signals ++ [signal] }

def reportFailure (message : Text) (s : State) : State :=
  if s.reported then s else emit (.failed message) { s with reported := true }

/-- What comes of an attempt to start a process. -/
inductive Launch where
  | noFolder (message : Text)
  | noProcess (message : Text)
  | launched

def start (launch : Launch) (s : State) : State :=
  if s.proc ≠ none then s
  else
    let s := { s with
      warnings := [], reported := false, outputPath := none, session := s.session + 1 }
    match launch with
    | .noFolder message => reportFailure message s
    | .noProcess message =>
      reportFailure (ofString "Could not start the screen recorder: " ++ message) s
    | .launched => { s with proc := some s.session }

def stop (s : State) : State :=
  if s.proc = none then s
  else { s with
    recording := false
    killTimer := if s.killTimer = none then s.proc else s.killTimer }

def handleStatus (p : ℕ) (line : Text) (s : State) : State :=
  if s.proc ≠ some p then s
  else if verb line = ofString "recording" then
    { s with
      outputPath := some (rest line)
      recording := if s.killTimer = none then true else s.recording }
  else if verb line = ofString "warning" then { s with warnings := s.warnings ++ [rest line] }
  else if verb line = ofString "saved" then
    if s.reported then s
    else emit (.finished (rest line) s.warnings) { s with reported := true }
  else if verb line = ofString "error" then reportFailure (rest line) s
  else if verb line = ofString "cancelled" then { s with reported := true }
  else s

/-- The next line of a process, unless it cannot be read as text, which ends the reading. -/
def readStatus (p : ℕ) (s : State) : State :=
  match (s.sessions p).printed[(s.sessions p).read]? with
  | none => s
  | some line =>
    if Utf8.validate line then
      handleStatus p line (s.modify p fun session => { session with read := session.read + 1 })
    else s

/-- A process has announced that the file is saved. -/
def Announced (s : State) (path : Text) : Prop :=
  ∃ k ∈ List.range (s.session + 1), ∃ line ∈ (s.sessions k).printed,
    IsSaved line ∧ rest line = path

instance (s : State) (path : Text) : Decidable (Announced s path) :=
  inferInstanceAs (Decidable (∃ k ∈ _, ∃ line ∈ _, _ ∧ _))

/-- The files that `discard_partial_output` unlinks; the output only when it is empty. -/
def discarded (empty : Bool) (s : State) : List Text :=
  match s.outputPath with
  | none => []
  | some path =>
    Path.buildFilename (Path.dirname path) (46 :: Path.basename path ++ ofString ".part") ::
      if empty then [path] else []

def discardPartialOutput (empty : Bool) (s : State) : State :=
  { s with lost := s.lost ++ (discarded empty s).filter fun path => Announced s path }

def onExit (p : ℕ) (empty : Bool) (s : State) : State :=
  if s.proc ≠ some p then s
  else
    let s := { s with killTimer := none, proc := none, recording := false }
    if s.reported then s
    else reportFailure (ofString "The screen recorder stopped unexpectedly.")
      (discardPartialOutput empty s)

/-- The kill timer fires. -/
def onKillTimer (s : State) : State :=
  match s.killTimer with
  | none => s
  | some p =>
    let s := { s with killTimer := none }
    if s.proc = some p ∧ s.reported = false then
      reportFailure (ofString "The screen recorder did not finish saving the video.")
        (s.modify p fun session => { session with killed := true })
    else s

/-- The process prints a line, unless it is gone or has printed its last one. -/
def print (p : ℕ) (line : Text) (s : State) : State :=
  if s.proc = some p ∧ ∀ l ∈ (s.sessions p).printed, ¬IsLast l then
    s.modify p fun session => { session with printed := session.printed ++ [line] }
  else s

inductive Event where
  | start (launch : Launch)
  | stop
  | printed (p : ℕ) (line : Text)
  | delivered (p : ℕ)
  | exited (p : ℕ) (empty : Bool)
  | killTimer

def step (s : State) : Event → State
  | .start launch => start launch s
  | .stop => stop s
  | .printed p line => print p line s
  | .delivered p => readStatus p s
  | .exited p empty => onExit p empty s
  | .killTimer => onKillTimer s

end ScreenRecorder

end SingularityShell
