import SingularityShell.Lib.Path
import SingularityShell.Lib.Transition

/-!
# Applications that are paused

`AppPause` keeps the processes of each application in a control group of their own, its scope, and
pauses an application by writing to `cgroup.freeze` of its scope. Whether the scope is paused it
reads from `cgroup.events`, where the kernel says so when all processes have stopped.

## Main definitions

* `AppPause.scopeName` — the name of the scope of an application
* `AppPause.State` — the control groups, the processes and the windows
* `AppPause.pause`, `AppPause.resume`, `AppPause.onResumeRequested` — what is asked for
* `AppPause.step` — one call, or one thing that happens outside
-/

namespace SingularityShell

namespace AppPause

open Ascii

/-! ### Names -/

def isPlain (b : UInt8) : Bool :=
  (97 ≤ b && b ≤ 122) || (65 ≤ b && b ≤ 90) || isDigit b || b = 46 || b = 45 || b = 95

/-- The end `.desktop` is taken off once. -/
def withoutDesktop (id : Text) : Text :=
  if (ofString ".desktop").isSuffixOf id then id.take (id.length - 8) else id

/-- Each character of the id is one of the name. A character that is not ASCII has one byte that
does not continue another. -/
def scopeName (desktopId : Text) : Text :=
  let name := ((withoutDesktop desktopId).filter fun b => b &&& 0xC0 ≠ 0x80).map fun b =>
    if isPlain b then b else 95
  ofString "app-" ++ (if name = [] then ofString "unknown" else name) ++ ofString ".scope"

/-! ### Control groups -/

structure Cgroup where
  path : Text
  /-- what was last written to `cgroup.freeze` -/
  freeze : Bool := false
  /-- what the kernel says of it -/
  frozen : Bool := false
  deriving DecidableEq

structure Process where
  pid : ℕ
  parent : ℕ
  cgroup : Text
  /-- what `may_signal` says -/
  signalable : Bool := true
  deriving DecidableEq

structure Window where
  handle : ℕ
  appId : Text
  deriving DecidableEq

structure State where
  available : Bool
  session : Text
  slice : Text
  cgroups : List Cgroup := []
  processes : List Process := []
  /-- the process of each window that the compositor has -/
  toplevels : List (ℕ × ℕ) := []
  /-- the windows that `AppSystem` lists -/
  windows : List Window := []
  /-- the scopes that were asked for, the last first, and whether they were to be resumed -/
  requests : List (Text × Bool) := []

variable (s : State)

def State.cgroup? (path : Text) : Option Cgroup := s.cgroups.find? (·.path = path)

def State.freeze (path : Text) : Bool := (s.cgroup? path).any (·.freeze)

def State.frozen (path : Text) : Bool := (s.cgroup? path).any (·.frozen)

def State.populated (path : Text) : Bool := s.processes.any (·.cgroup = path)

def flag (b : Bool) : Text := ofString (if b then "1" else "0")

/-- `cgroup.events` -/
def State.events (path : Text) : Option Text :=
  (s.cgroup? path).map fun c => ofString "populated " ++ flag (s.populated path) ++
    ofString "\nfrozen " ++ flag c.frozen ++ ofString "\n"

/-- `read_key`: the number in the first line that the key begins. -/
def readKey (contents : Option Text) (key : Text) : ℕ :=
  match contents with
  | none => 0
  | some contents =>
    match (contents.splitOn 10).find? (key ++ [32]).isPrefixOf with
    | none => 0
    | some line => value ((line.drop (key.length + 1)).takeWhile isDigit)

/-- `mkdir`, where a group that exists stays. -/
def State.mkdir (path : Text) (s : State) : State :=
  if (s.cgroup? path).isSome then s else { s with cgroups := s.cgroups ++ [{ path }] }

def State.writeFreeze (path : Text) (v : Bool) (s : State) : State :=
  { s with cgroups := s.cgroups.map fun c => if c.path = path then { c with freeze := v } else c }

/-- A process is written to `cgroup.procs`. -/
def State.attach (path : Text) (pid : ℕ) (s : State) : State :=
  { s with processes := s.processes.map fun p =>
      if p.pid = pid then { p with cgroup := path } else p }

/-- The kernel catches up with what was written. -/
def State.settle (path : Text) (s : State) : State :=
  { s with cgroups := s.cgroups.map fun c =>
      if c.path = path then { c with frozen := c.freeze } else c }

/-! ### Processes -/

def State.cgroupOf (pid : ℕ) : Option Text := (s.processes.find? (·.pid = pid)).map (·.cgroup)

def State.maySignal (pid : ℕ) : Bool := (s.processes.find? (·.pid = pid)).any (·.signalable)

def State.getPid (handle : ℕ) : Option ℕ := (s.toplevels.find? (·.1 = handle)).map (·.2)

/-- `app_scope_of` -/
def State.appScopeOf (pid : ℕ) : Option Text :=
  (s.cgroupOf pid).filter fun path => path ≠ [] ∧ path ≠ [47] ∧
    (ofString "app-").isPrefixOf (Path.basename path) ∧
      (ofString ".scope").isSuffixOf (Path.basename path) ∧ path ≠ s.session

def State.scopePath (appId : Text) : Text := s.slice ++ 47 :: scopeName appId

/-- The children of a process that the session still holds. -/
def State.children (root parent : ℕ) : List ℕ :=
  (s.processes.filter fun p => 1 < p.pid ∧ p.pid ≠ root ∧ p.signalable ∧ p.cgroup = s.session ∧
    p.parent = parent).map (·.pid)

/-- The loop of `tree_of`, which looks at one process in each round. -/
def State.grow (root : ℕ) : ℕ → List ℕ → List ℕ
  | 0, tree => tree
  | _ + 1, [] => []
  | rounds + 1, pid :: tree => pid :: State.grow root rounds (tree ++ s.children root pid)

def State.treeOf (root : ℕ) : List ℕ := s.grow root (s.processes.length + 1) [root]

/-! ### The methods -/

/-- `prepare_launch`: the path to join, when the directory can be made. -/
def prepareLaunch (appId : Text) (made : Bool) (s : State) : Option Text × State :=
  if s.available = false ∨ appId = [] then (none, s)
  else
    let path := s.scopePath appId
    if made ∨ (s.cgroup? path).isSome then (some path, s.mkdir path) else (none, s)

/-- `launch_app`: the process joins the scope before it runs, and belongs to the session else. -/
def launchApp (p : Process) (desktopId : Text) (made : Bool) (s : State) : State :=
  match prepareLaunch (withoutDesktop desktopId) made s with
  | (path, s) => { s with processes := s.processes ++ [{ p with cgroup := path.getD s.session }] }

def placeWindow (handle : ℕ) (appId : Text) (made : Bool) (s : State) : State :=
  if s.available = false ∨ appId = [] then s
  else
    match s.getPid handle with
    | none => s
    | some pid =>
      if !s.maySignal pid then s
      else if s.cgroupOf pid ≠ some s.session then s
      else
        let path := s.scopePath appId
        if made ∨ (s.cgroup? path).isSome then
          (s.treeOf pid).foldl (fun t member => t.attach path member) (s.mkdir path)
        else s

structure Group where
  appId : Text
  path : Text
  paused : Bool
  deriving DecidableEq

/-- The id that a scope is listed under: that of a window, the last of those with this name. -/
def State.idOf (name : Text) : Text :=
  match s.windows.reverse.find? (scopeName ·.appId = name) with
  | some win => win.appId
  | none => (name.drop 4).take (name.length - 10)

def State.groups : List Group :=
  if s.available = false then []
  else
    ((s.cgroups.filter (Path.dirname ·.path = s.slice)).map (Path.basename ·.path)).filterMap
      fun name =>
        if !(ofString "app-").isPrefixOf name ∨ !(ofString ".scope").isSuffixOf name then none
        else
          let path := s.slice ++ 47 :: name
          some {
            appId := s.idOf name
            path
            paused := readKey (s.events path) (ofString "frozen") = 1 }

def State.isPaused (appId : Text) : Bool :=
  s.available && readKey (s.events (s.scopePath appId)) (ofString "frozen") = 1

def State.canPause (appId : Text) : Bool :=
  s.available && readKey (s.events (s.scopePath appId)) (ofString "populated") = 1

/-- `pause`, and what it returns; `changed` is emitted when this is true. -/
def pause (appId : Text) (s : State) : Bool × State :=
  if !s.canPause appId ∨ s.isPaused appId then (false, s)
  else (true, s.writeFreeze (s.scopePath appId) true)

/-- `resume`, and what it returns; `changed` is emitted when this is true. -/
def resume (appId : Text) (s : State) : Bool × State :=
  if !s.isPaused appId then (false, s) else (true, s.writeFreeze (s.scopePath appId) false)

def onResumeRequested (toplevel : ℕ) (s : State) : State :=
  match s.windows.find? (·.handle = toplevel) with
  | some win => (resume win.appId s).2
  | none =>
    match (s.getPid toplevel).bind s.appScopeOf with
    | some path => s.writeFreeze path false
    | none => s

/-- The groups that no process is in are removed. -/
def prune (s : State) : State :=
  { s with cgroups := s.cgroups.filter fun c =>
      !(s.groups.any fun group => group.path = c.path ∧
        readKey (s.events group.path) (ofString "populated") = 0) }

/-! ### Runs -/

inductive Event where
  | started (p : Process)
  | exited (pid : ℕ)
  | launched (p : Process) (desktopId : Text) (made : Bool)
  | mapped (handle pid : ℕ)
  | opened (win : Window)
  | closed (handle : ℕ)
  | placed (handle : ℕ) (appId : Text) (made : Bool)
  | pruned
  | settled (path : Text)
  | paused (appId : Text)
  | resumed (appId : Text)
  | resumeRequested (toplevel : ℕ)

/-- The scopes that a request for a window asks for: that of the id that it is listed under, and
that of its process. -/
def State.requested (toplevel : ℕ) : List Text :=
  ((s.windows.find? (·.handle = toplevel)).map fun win => s.scopePath win.appId).toList ++
    ((s.getPid toplevel).bind s.appScopeOf).toList

/-- Scopes are asked for. -/
def State.ask (paths : List Text) (resumed : Bool) (s : State) : State :=
  { s with requests := paths.map (·, resumed) ++ s.requests }

/-- Requests for windows are listened to where applications can be paused. -/
def step (s : State) : Event → State
  | .started p => { s.mkdir p.cgroup with processes := s.processes ++ [p] }
  | .exited pid => { s with processes := s.processes.filter (·.pid ≠ pid) }
  | .launched p desktopId made => launchApp p desktopId made s
  | .mapped handle pid => { s with toplevels := s.toplevels ++ [(handle, pid)] }
  | .opened win => { s with windows := s.windows ++ [win] }
  | .closed handle => { s with
      windows := s.windows.filter (·.handle ≠ handle)
      toplevels := s.toplevels.filter (·.1 ≠ handle) }
  | .placed handle appId made => placeWindow handle appId made s
  | .pruned => prune s
  | .settled path => s.settle path
  | .paused appId => (pause appId (s.ask [s.scopePath appId] false)).2
  | .resumed appId => (resume appId (s.ask [s.scopePath appId] true)).2
  | .resumeRequested toplevel =>
    if s.available then onResumeRequested toplevel (s.ask (s.requested toplevel) true)
    else s.ask (s.requested toplevel) true

/-- The last request for a scope. -/
def State.lastRequest (path : Text) : Option Bool :=
  (s.requests.find? (·.1 = path)).map (·.2)

end AppPause

end SingularityShell
