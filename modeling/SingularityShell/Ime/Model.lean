import Mathlib.Logic.Function.Basic
import SingularityShell.Lib.Transition

/-!
# The keyboard grab of the input method

The input method takes the keyboard while text is entered, asks the engine about every key, and
sends the keys that the engine does not want to the application, on a keyboard of its own.

## Main definitions

* `Ime.State` — the state of the grab and of the queue of keys
* `Ime.grabKey`, `Ime.onKey`, `Ime.drain` — what becomes of a key
* `Ime.step` — one event from the compositor, the engine or the rest of the shell
-/

namespace SingularityShell

namespace Ime

/-- `KEY_COUNT` -/
def keyCount : ℕ := 1024

structure KeyEvent where
  key : ℕ
  pressed : Bool
  deriving DecidableEq

/-- `PendingKey`: an event that waits, with its number among the events that were delivered. -/
structure PendingKey where
  index : ℕ
  event : KeyEvent
  deriving DecidableEq

/-- An event on the forward keyboard, with the number of the event that it forwards, unless the
shell types it by itself. -/
structure Sent where
  origin : Option ℕ
  event : KeyEvent
  deriving DecidableEq

structure State where
  pendingActive : Bool := false
  currentActive : Bool := false
  inputMethod : Bool := true
  wantGrab : Bool := false
  keyDepth : ℕ := 0
  /-- `keyboard_grab`, which is known by its number. -/
  keyboardGrab : Option ℕ := none
  grabs : ℕ := 0
  forwardKeymapSet : Bool := false
  forwarded : ℕ → Bool := fun _ => false
  keyQueue : List PendingKey := []
  /-- The key about which `drain_keys` asks the engine, if it is running. -/
  processing : Option PendingKey := none
  /-- `engine_context()` -/
  engineContext : Bool := false
  delivered : List KeyEvent := []
  sent : List Sent := []

def State.draining (s : State) : Bool := s.processing.isSome

/-! ### The forward keyboard -/

/-- `send_forward` -/
def sendForward (origin : Option ℕ) (e : KeyEvent) (s : State) : State :=
  if s.forwardKeymapSet then { s with sent := s.sent ++ [⟨origin, e⟩] } else s

/-- `forwarded[key] = pressed`, for the keys that the array has. -/
def setForwarded (e : KeyEvent) (s : State) : State :=
  if e.key < keyCount then { s with forwarded := Function.update s.forwarded e.key e.pressed }
  else s

/-- `singularity_ime_forward_key` -/
def forwardKey (origin : Option ℕ) (e : KeyEvent) (s : State) : State :=
  setForwarded e (sendForward origin e s)

/-- `singularity_ime_key_forwarded` -/
def keyForwarded (key : ℕ) (s : State) : Bool := key < keyCount && s.forwarded key

/-- The body of the loop of `release_forwarded_keys`. -/
def releaseForwardedKey (s : State) (key : ℕ) : State :=
  if s.forwarded key then setForwarded ⟨key, false⟩ (sendForward none ⟨key, false⟩ s) else s

/-- `release_forwarded_keys` -/
def releaseForwardedKeys (s : State) : State :=
  (List.range keyCount).foldl releaseForwardedKey s

/-- The shell types a key by itself. -/
def tap (key : ℕ) (s : State) : State :=
  forwardKey none ⟨key, false⟩ (forwardKey none ⟨key, true⟩ s)

/-! ### The grab -/

/-- `update_grab` -/
def updateGrab (s : State) : State :=
  if s.keyDepth ≠ 0 then s
  else
    let grab := s.wantGrab && s.currentActive && s.inputMethod
    if grab ∧ s.keyboardGrab = none then
      { s with keyboardGrab := some s.grabs, grabs := s.grabs + 1 }
    else if ¬grab ∧ s.keyboardGrab ≠ none then
      { releaseForwardedKeys s with keyboardGrab := none }
    else s

/-- `singularity_ime_set_grab` -/
def setGrab (grab : Bool) (s : State) : State := updateGrab { s with wantGrab := grab }

/-! ### The queue -/

/-- The body of the loop of `drain_keys`, after the engine has answered. -/
def settle (item : PendingKey) (handled : Bool) (s : State) : State :=
  if item.event.pressed then
    if handled then s else forwardKey item.index item.event s
  else if keyForwarded item.event.key s then forwardKey item.index item.event s
  else s

/-- The loop of `drain_keys` up to the next question to the engine. -/
def drain : List PendingKey → State → State
  | [], s => { s with processing := none, keyQueue := [] }
  | item :: queue, s =>
    if s.engineContext then { s with processing := some item, keyQueue := queue }
    else drain queue (settle item false s)

/-- The engine answers. -/
def reply (handled : Bool) (s : State) : State :=
  match s.processing with
  | none => s
  | some item =>
    let s := settle item handled s
    drain s.keyQueue s

/-! ### Keys -/

/-- What the shell does while it handles a key. -/
inductive Call where
  | setGrab (grab : Bool)
  | tap (key : ℕ)

def call (s : State) : Call → State
  | .setGrab grab => setGrab grab s
  | .tap key => tap key s

/-- How `on_key` decides about a key: it captures an escape, or it handles the key when there is no
engine. -/
structure Answer where
  captured : Bool := false
  consumed : Bool := false
  calls : List Call := []

/-- A key waits in the queue, and `drain_keys` starts if it does not run. -/
def enqueue (e : KeyEvent) (s : State) : State :=
  let queue := s.keyQueue ++ [⟨s.delivered.length - 1, e⟩]
  if s.draining then { s with keyQueue := queue } else drain queue s

/-- `on_key` -/
def onKey (e : KeyEvent) (answer : Answer) (s : State) : Bool × State :=
  if answer.captured then (true, if e.pressed then answer.calls.foldl call s else s)
  else if s.engineContext || s.draining then (true, enqueue e s)
  else if ¬e.pressed then (false, s)
  else (answer.consumed, answer.calls.foldl call s)

/-- What `grab_key` does after the callback. -/
def afterKey (e : KeyEvent) (consumed : Bool) (s : State) : State :=
  let origin := some (s.delivered.length - 1)
  if e.key ≥ keyCount then if consumed then s else sendForward origin e s
  else if e.pressed then if consumed then s else setForwarded e (sendForward origin e s)
  else if s.forwarded e.key then setForwarded e (sendForward origin e s)
  else s

/-- `grab_key` -/
def grabKey (grab : ℕ) (e : KeyEvent) (answer : Answer) (s : State) : State :=
  if s.keyboardGrab ≠ some grab then s
  else
    let s := { s with keyDepth := s.keyDepth + 1, delivered := s.delivered ++ [e] }
    let (consumed, s) := onKey e answer s
    let s := afterKey e consumed s
    updateGrab { s with keyDepth := s.keyDepth - 1 }

/-! ### Runs -/

/-- An event from the compositor, from the engine, or from the rest of the shell. -/
inductive Event where
  | activate
  | deactivate
  | done
  | unavailable
  | keymap
  | key (grab : ℕ) (e : KeyEvent) (answer : Answer)
  | reply (handled : Bool)
  | engineContext (available : Bool)
  | call (c : Call)

def step (s : State) : Event → State
  | .activate => { s with pendingActive := true }
  | .deactivate => { s with pendingActive := false }
  | .done => updateGrab { s with currentActive := s.pendingActive }
  | .unavailable => { s with inputMethod := false }
  | .keymap => { s with forwardKeymapSet := true }
  | .key grab e answer => grabKey grab e answer s
  | .reply handled => reply handled s
  | .engineContext available => { s with engineContext := available }
  | .call c => call s c

abbrev run : State → List Event → State := Transition.run step

end Ime

end SingularityShell
