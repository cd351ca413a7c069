import Mathlib.Algebra.Group.Nat.Defs
import Mathlib.Data.List.Basic
import SingularityShell.Lib.Transition

/-!
# The XSETTINGS daemon and its supervisor

The shell writes the settings of X11 programs to a file and keeps one `xsettingsd` running, which
reads the file when it starts and on each hang-up signal. A child that ends is started again after a
delay that grows.

## Main definitions

* `Xsettings.World` — the supervisor, its timers, the child processes and the file
* `Xsettings.update`, `reload`, `stop`, `start`, `onChildExit` — the methods of the supervisor
* `Xsettings.Event`, `Xsettings.step` — what happens, in any order
-/

namespace SingularityShell

namespace Xsettings

/-- `MAX_QUICK_EXITS` -/
def maxQuickExits : ℕ := 5

/-- `QUICK_EXIT_USEC` -/
def quickExitUsec : ℕ := 10 * 1000000

/-- `RELOAD_DELAY_MS` -/
def reloadDelayMs : ℕ := 150

/-- `STARTUP_GRACE_USEC` -/
def startupGraceUsec : ℕ := 1000000

structure Timer where
  id : ℕ
  /-- The time before which it does not expire, in microseconds. -/
  due : ℕ
  deriving DecidableEq

/-- What has happened to the child. -/
inductive Entry where
  | reloaded
  | stopped
  | started
  | exited (quick : Bool)
  deriving DecidableEq

structure World where
  child : Option ℕ := none
  startedAt : ℕ := 0
  quickExits : ℕ := 0
  restartSource : ℕ := 0
  reloadSource : ℕ := 0
  stopping : Bool := false
  /-- The timers of the main loop that start the child again. -/
  restarts : List Timer := []
  /-- Those that make it read the file again. -/
  reloads : List Timer := []
  nextSource : ℕ := 1
  /-- The children that run. -/
  running : List ℕ := []
  /-- Those that have ended, of which the supervisor has not been told. -/
  ended : List ℕ := []
  nextChild : ℕ := 0
  /-- The monotonic time, in microseconds. -/
  now : ℕ := 0
  /-- How often the file has been written. -/
  version : ℕ := 0
  /-- The version that the child has read. -/
  seen : ℕ := 0
  /-- The last attempt to start the child has failed. -/
  failed : Bool := false
  /-- What has happened, the latest first. -/
  log : List Entry := []

/-- What starting a child depends on. -/
structure Env where
  /-- The program is found in the path. -/
  program : Bool := true
  /-- `DISPLAY` is set. -/
  display : Bool := true
  spawns : Bool := true

def Env.able (e : Env) : Bool := e.program && e.display && e.spawns

def start (e : Env) (s : World) : World :=
  if s.child.isSome || s.stopping then s
  else if !e.program then { s with failed := true }
  else if !e.display then { s with failed := true }
  else if !e.spawns then { s with failed := true }
  else
    { s with
      child := some s.nextChild
      startedAt := s.now
      running := s.running ++ [s.nextChild]
      nextChild := s.nextChild + 1
      seen := s.version
      failed := false
      log := .started :: s.log }

def reload (e : Env) (s : World) : World :=
  let s := { s with stopping := false, log := .reloaded :: s.log }
  if s.child.isNone then start e { s with quickExits := 0 }
  else if s.reloadSource ≠ 0 then s
  else
    let age := s.now - s.startedAt
    let delay := if age < startupGraceUsec then (startupGraceUsec - age) / 1000 + reloadDelayMs
      else reloadDelayMs
    { s with
      reloadSource := s.nextSource
      reloads := s.reloads ++ [⟨s.nextSource, s.now + delay * 1000⟩]
      nextSource := s.nextSource + 1 }

/-- `update`, which throws before it reloads unless the file is read and written. -/
def update (writes : Bool) (e : Env) (s : World) : World :=
  if writes then reload e { s with version := s.version + 1 } else s

/-- `stop`. The signal to the child ends it at some later time, if at all. -/
def stop (s : World) : World :=
  { s with
    stopping := true
    restarts := s.restarts.filter (·.id ≠ s.restartSource)
    restartSource := 0
    reloads := s.reloads.filter (·.id ≠ s.reloadSource)
    reloadSource := 0
    log := .stopped :: s.log }

/-- Less than `QUICK_EXIT_USEC` has passed since the last start. -/
def quick (s : World) : Bool := s.now - s.startedAt < quickExitUsec

def onChildExit (proc : ℕ) (s : World) : World :=
  if s.child ≠ some proc then s
  else
    let s := { s with
      child := none
      reloads := s.reloads.filter (·.id ≠ s.reloadSource)
      reloadSource := 0
      log := .exited (quick s) :: s.log }
    if s.stopping then s
    else
      let s := { s with quickExits := if quick s then s.quickExits + 1 else 0 }
      if maxQuickExits ≤ s.quickExits then s
      else
        let delay := 500 * 2 ^ min s.quickExits 5
        { s with
          restartSource := s.nextSource
          restarts := s.restarts ++ [⟨s.nextSource, s.now + delay * 1000⟩]
          nextSource := s.nextSource + 1 }

/-- The callback of a timer for a restart. -/
def onRestart (id : ℕ) (e : Env) (s : World) : World :=
  start e { s with restarts := s.restarts.filter (·.id ≠ id), restartSource := 0 }

/-- The callback of a timer for a reload. -/
def onReload (id : ℕ) (e : Env) (s : World) : World :=
  let s := { s with reloads := s.reloads.filter (·.id ≠ id), reloadSource := 0 }
  match s.child with
  | none => start e s
  | some proc => if proc ∈ s.running then { s with seen := s.version } else s

/-! ### Events -/

inductive Event where
  | update (writes : Bool) (e : Env)
  | reload (e : Env)
  | stop
  /-- A timer for a restart expires. -/
  | restart (id : ℕ) (e : Env)
  /-- A timer for a reload expires. -/
  | hangUp (id : ℕ) (e : Env)
  /-- A child ends. -/
  | dies (proc : ℕ)
  /-- The supervisor is told of it. -/
  | noticed (proc : ℕ)
  | wait (usec : ℕ)

/-- One event. What is not possible leaves everything as it is. -/
def step (s : World) : Event → World
  | .update writes e => update writes e s
  | .reload e => reload e s
  | .stop => stop s
  | .restart id e => if ∃ t ∈ s.restarts, t.id = id ∧ t.due ≤ s.now then onRestart id e s else s
  | .hangUp id e => if ∃ t ∈ s.reloads, t.id = id ∧ t.due ≤ s.now then onReload id e s else s
  | .dies proc =>
    if proc ∈ s.running then
      { s with running := s.running.erase proc, ended := s.ended ++ [proc] }
    else s
  | .noticed proc =>
    if proc ∈ s.ended then onChildExit proc { s with ended := s.ended.erase proc } else s
  | .wait usec => { s with now := s.now + usec }

def run (events : List Event) : World := Transition.run step {} events

end Xsettings

end SingularityShell
