import Mathlib.Data.List.Basic
import Mathlib.Logic.Function.Basic
import SingularityShell.Lib.Ascii
import SingularityShell.Lib.Transition

/-!
# The windows and workspaces of the shell

The compositor announces windows and workspaces, and the shell keeps which window is on which
workspace. The windows of a workspace that is destroyed are kept apart until they are put on other
workspaces, and a window follows its monitor, both when the main loop is idle.

## Main definitions

* `Registry.State` — the lists of `AppSystem`
* `Registry.Compositor` — what the compositor answers while an event is handled
* `Registry.placeWindow`, `Registry.adoptOrphanWindows` — the windows that are put on a workspace
* `Registry.reresolveWindowIcons` — the ids of the windows once the applications are known
* `Registry.step` — one callback
-/

namespace SingularityShell

namespace Registry

open Ascii

/-- A handle of the compositor. The null handle is 0. -/
abbrev Handle := ℕ

structure Window where
  id : ℕ
  handle : Handle
  appId : Text
  /-- Whether `gicon` is set. -/
  gicon : Bool
  /-- The data `workspace-index` of the window. -/
  workspaceIndex : ℕ := 0

structure Workspace where
  id : ℕ
  handle : Handle
  active : Bool := false

structure State where
  workspaces : List Workspace := []
  /-- The field `windows` of each workspace. -/
  windowsOf : ℕ → List ℕ := fun _ => []
  windows : List Window := []
  orphanWindows : List ℕ := []
  mruWindows : List ℕ := []
  runningApps : List Text := []
  /-- `current_focused_window_handle` -/
  focusedHandle : Handle := 0
  /-- `window_to_move_to_new_workspace` -/
  windowToMove : Option ℕ := none
  /-- `_ws_changed_pending` -/
  changedPending : Bool := false
  /-- The handles of the windows that are to follow their monitor. -/
  following : List Handle := []
  /-- The ids that the next window and the next workspace get. -/
  nextWindow : ℕ := 0
  nextWorkspace : ℕ := 0
  /-- The windows that got the focus, the last one first. -/
  focusLog : List ℕ := []

/-- The ids of the windows that are open. -/
def State.ids (s : State) : List ℕ := s.windows.map (·.id)

/-- The ids of the workspaces. -/
def State.cells (s : State) : List ℕ := s.workspaces.map (·.id)

structure Compositor where
  /-- `wayland_get_window_monitor` -/
  windowMonitor : Handle → Option ℕ
  /-- `wayland_get_workspace_group` -/
  workspaceGroup : Handle → ℕ
  /-- `wayland_get_workspace_connector` -/
  workspaceConnector : Handle → Option Text
  /-- `Gdk.Monitor.get_connector` -/
  connector : ℕ → Option Text
  /-- The first monitor of the display. -/
  firstMonitor : Option ℕ

variable (c : Compositor)

/-! ### Workspaces -/

/-- `workspaces_per_monitor` -/
def workspacesPerMonitor (s : State) : Bool :=
  match s.workspaces with
  | [] => false
  | first :: _ =>
    s.workspaces.any fun ws => (c.workspaceConnector ws.handle).isSome &&
      c.workspaceGroup ws.handle ≠ c.workspaceGroup first.handle

/-- `get_active_monitor` -/
def getActiveMonitor (s : State) : Option ℕ :=
  if s.focusedHandle ≠ 0 then (c.windowMonitor s.focusedHandle).or c.firstMonitor
  else c.firstMonitor

/-- `get_workspaces_for_monitor` -/
def getWorkspacesForMonitor (s : State) (monitor : Option ℕ) : List Workspace :=
  let perMonitor := workspacesPerMonitor c s
  let target := if perMonitor && monitor.isNone then getActiveMonitor c s else monitor
  let connector := target.bind c.connector
  s.workspaces.filter fun ws =>
    !perMonitor || connector.isNone || c.workspaceConnector ws.handle = connector

/-- `get_active_workspace_on` -/
def getActiveWorkspaceOn (s : State) (monitor : Option ℕ) : Option Workspace :=
  (getWorkspacesForMonitor c s monitor).find? (·.active)

/-- `index_in_group`, where none stands for -1. -/
def indexInGroup (target : Workspace) : List Workspace → ℕ → Option ℕ
  | [], _ => none
  | ws :: workspaces, index =>
    if ws.id = target.id then some index
    else if c.workspaceGroup ws.handle = c.workspaceGroup target.handle then
      indexInGroup target workspaces (index + 1)
    else indexInGroup target workspaces index

/-- `workspace_of` -/
def workspaceOf (s : State) (win : ℕ) : Option Workspace :=
  s.workspaces.find? fun ws => (s.windowsOf ws.id).contains win

/-- Takes a window from a workspace. -/
def takeWindow (win ws : ℕ) (s : State) : State :=
  { s with windowsOf := Function.update s.windowsOf ws ((s.windowsOf ws).erase win) }

/-- Appends a window to a workspace. -/
def putWindow (win ws : ℕ) (s : State) : State :=
  { s with windowsOf := Function.update s.windowsOf ws (s.windowsOf ws ++ [win]) }

/-- `schedule_workspaces_changed` -/
def scheduleWorkspacesChanged (s : State) : State := { s with changedPending := true }

/-- `place_window` -/
def placeWindow (win ws : ℕ) (s : State) : State :=
  match workspaceOf s win with
  | some current =>
    if current.id = ws then s
    else scheduleWorkspacesChanged (putWindow win ws (takeWindow win current.id s))
  | none => scheduleWorkspacesChanged (putWindow win ws s)

/-- `follow_window_monitor` -/
def followWindowMonitor (handle : Handle) (s : State) : State :=
  if workspacesPerMonitor c s then
    match s.windows.find? (·.handle = handle) with
    | none => s
    | some win =>
      match c.windowMonitor handle with
      | none => s
      | some monitor =>
        if (workspaceOf s win.id).any fun ws => c.workspaceConnector ws.handle = c.connector monitor
        then s
        else
          match getActiveWorkspaceOn c s (some monitor) with
          | some target => placeWindow win.id target.id s
          | none => s
  else s

/-- The workspace that `adopt_orphan_windows` puts a window on. -/
def adoptTarget (s : State) (win : Window) : Option Workspace :=
  let monitor := c.windowMonitor win.handle
  (getWorkspacesForMonitor c s monitor)[win.workspaceIndex]?.or (getActiveWorkspaceOn c s monitor)

/-- `adopt_orphan_windows`, for one window. -/
def adopt (s : State) (id : ℕ) : State :=
  match s.windows.find? (·.id = id) with
  | none => s
  | some win =>
    match adoptTarget c s win with
    | some target => putWindow id target.id s
    | none => s

/-- `adopt_orphan_windows` -/
def adoptOrphanWindows (s : State) : State :=
  if s.orphanWindows = [] ∨ s.workspaces = [] then s
  else s.orphanWindows.foldl (adopt c) { s with orphanWindows := [] }

/-- `move_window_to_workspace`. A workspace that is in the list has an index in its group. -/
def moveWindowToWorkspace (win ws : ℕ) (s : State) : State :=
  if s.cells.contains ws then placeWindow win ws s else s

/-- `on_workspace_created` -/
def onWorkspaceCreated (handle : Handle) (s : State) : State :=
  if s.workspaces.any (·.handle = handle) then s
  else
    let ws := s.nextWorkspace
    let s := scheduleWorkspacesChanged { s with
      workspaces := s.workspaces ++ [{ id := ws, handle }]
      windowsOf := Function.update s.windowsOf ws []
      nextWorkspace := ws + 1 }
    match s.windowToMove with
    | some win => moveWindowToWorkspace win ws { s with windowToMove := none }
    | none => s

/-- `on_workspace_destroyed` -/
def onWorkspaceDestroyed (handle : Handle) (s : State) : State :=
  match s.workspaces.find? (·.handle = handle) with
  | none => s
  | some found =>
    let index := (indexInGroup c found s.workspaces 0).getD 0
    scheduleWorkspacesChanged { s with
      windows := s.windows.map fun win =>
        if (s.windowsOf found.id).contains win.id then { win with workspaceIndex := index } else win
      orphanWindows := s.orphanWindows ++ s.windowsOf found.id
      workspaces := s.workspaces.eraseP (·.id = found.id) }

/-- `on_workspace_state` -/
def onWorkspaceState (handle : Handle) (active : Bool) (s : State) : State :=
  scheduleWorkspacesChanged { s with
    workspaces := s.workspaces.map fun ws => if ws.handle = handle then { ws with active } else ws }

/-! ### Windows -/

/-- `handle_app_focused` -/
def handleAppFocused (handle : Handle) (s : State) : State :=
  let s := { s with focusedHandle := handle }
  match s.windows.find? (·.handle = handle) with
  | some found =>
    { s with
      mruWindows := found.id :: s.mruWindows.erase found.id
      focusLog := found.id :: s.focusLog }
  | none => s

/-- `get_mru_windows` -/
def getMruWindows (s : State) : List ℕ :=
  s.ids.foldl (fun list id => if id ∈ list then list else list ++ [id])
    (s.mruWindows.filter (· ∈ s.ids))

/-- What the applications that are installed tell about an id. -/
structure AppInfo where
  id : Option Text
  /-- Whether `get_icon` returns one. -/
  icon : Bool

/-- The id of a window that the compositor names so, and whether it has an icon. -/
def identify (resolve : Text → Option AppInfo) (raw : Option Text) : Text × Bool :=
  let appId :=
    match raw with
    | some appId => if strip appId = [] then ofString "unknown-wayland-surface" else appId
    | none => ofString "unknown-wayland-surface"
  match resolve appId with
  | some info => (info.id.getD appId, info.icon)
  | none => (appId, false)

/-- Appends an id to the ids of the applications that run, when it is not there. -/
def addRunning (appId : Text) (running : List Text) : List Text :=
  if running.any (· = appId) then running else running ++ [appId]

/-- The workspace that `add_running_app` puts a window on, which is created when there is none. -/
def targetWorkspace (handle : Handle) (s : State) : State × ℕ :=
  match s.workspaces with
  | [] =>
    ({ s with
        workspaces := [{ id := s.nextWorkspace, handle := 0, active := true }]
        windowsOf := Function.update s.windowsOf s.nextWorkspace []
        nextWorkspace := s.nextWorkspace + 1 }, s.nextWorkspace)
  | first :: _ => (s, ((getActiveWorkspaceOn c s (c.windowMonitor handle)).getD first).id)

/-- `add_running_app` -/
def addRunningApp (resolve : Text → Option AppInfo) (handle : Handle) (raw : Option Text)
    (s : State) : State :=
  if s.windows.any (·.handle = handle) then s
  else
    let (appId, gicon) := identify resolve raw
    let win := s.nextWindow
    let s := { s with
      windows := s.windows ++ [{ id := win, handle, appId, gicon }]
      nextWindow := win + 1 }
    let (s, ws) := targetWorkspace c handle s
    let s := scheduleWorkspacesChanged (putWindow win ws s)
    { s with runningApps := addRunning appId s.runningApps }

/-- Takes a window that was closed from its workspace. -/
def leaveWorkspace (win : ℕ) (s : State) : State :=
  match workspaceOf s win with
  | some ws => scheduleWorkspacesChanged (takeWindow win ws.id s)
  | none => s

/-- `remove_running_app` -/
def removeRunningApp (handle : Handle) (s : State) : State :=
  match s.windows.find? (·.handle = handle) with
  | none => s
  | some found =>
    let s := leaveWorkspace found.id { s with
      windows := s.windows.eraseP (·.id = found.id)
      mruWindows := s.mruWindows.erase found.id
      focusedHandle := if handle = s.focusedHandle then 0 else s.focusedHandle }
    if s.windows.any (·.appId = found.appId) then s
    else { s with runningApps := s.runningApps.erase found.appId }

/-! ### The ids of the windows -/

variable (down : Text → Text)

/-- `steam_runtime_id_from_app_id` -/
def steamRuntimeIdFromAppId (appId : Text) : Option Text :=
  if appId = [] then none
  else
    let lower := down appId
    let lower :=
      if (ofString ".desktop").isSuffixOf lower then lower.take (lower.length - 8) else lower
    if !(ofString "steam_app_").isPrefixOf lower then none
    else if lower.length ≤ 10 then none
    else if (lower.drop 10).all isDigit then some lower
    else none

variable (resolve : Text → Option AppInfo)

/-- The window after `reresolve_window_icons`. -/
def reresolve (win : Window) : Window :=
  if win.gicon && (steamRuntimeIdFromAppId down win.appId).isNone then win
  else
    match resolve win.appId with
    | none => win
    | some info =>
      match info.id with
      | some canonical =>
        if canonical ≠ [] ∧ canonical ≠ win.appId then
          { win with gicon := info.icon, appId := canonical }
        else { win with gicon := info.icon }
      | none => { win with gicon := info.icon }

/-- `reresolve_window_icons`, for the ids of the applications that run. -/
def reresolveRunning (running : List Text) (win : Window) : List Text :=
  let appId := (reresolve down resolve win).appId
  if appId = win.appId then running else addRunning appId (running.erase win.appId)

/-- `reresolve_window_icons` -/
def reresolveWindowIcons (s : State) : State :=
  { s with
    windows := s.windows.map (reresolve down resolve)
    runningApps := s.windows.foldl (reresolveRunning down resolve) s.runningApps }

/-! ### Events -/

inductive Event where
  | appOpened (c : Compositor) (resolve : Text → Option AppInfo) (handle : Handle)
      (raw : Option Text)
  | appClosed (handle : Handle)
  | appFocused (handle : Handle)
  | workspaceCreated (handle : Handle)
  | workspaceDestroyed (c : Compositor) (handle : Handle)
  | workspaceState (handle : Handle) (active : Bool)
  | outputChanged (handle : Handle)
  /-- The idle callback that adopts windows. -/
  | changedIdle (c : Compositor)
  /-- The idle callback in which a window follows its monitor. -/
  | followIdle (c : Compositor) (handle : Handle)
  | moveWindow (win ws : ℕ)
  /-- A window is dropped on the button for a new workspace. -/
  | moveToNew (win : ℕ)
  /-- `scan_apps`, which finds applications that resolve the ids so. -/
  | scanApps (resolve : Text → Option AppInfo)

def step (s : State) : Event → State
  | .appOpened c resolve handle raw => addRunningApp c resolve handle raw s
  | .appClosed handle => removeRunningApp handle s
  | .appFocused handle => handleAppFocused handle s
  | .workspaceCreated handle => onWorkspaceCreated handle s
  | .workspaceDestroyed c handle => onWorkspaceDestroyed c handle s
  | .workspaceState handle active => onWorkspaceState handle active s
  | .outputChanged handle => { s with following := s.following ++ [handle] }
  | .changedIdle c =>
    if s.changedPending then adoptOrphanWindows c { s with changedPending := false } else s
  | .followIdle c handle =>
    if s.following.contains handle then
      followWindowMonitor c handle { s with following := s.following.erase handle }
    else s
  | .moveWindow win ws => moveWindowToWorkspace win ws s
  | .moveToNew win => { s with windowToMove := some win }
  | .scanApps resolve => reresolveWindowIcons down resolve s

/-- The state after the events. -/
def run (events : List Event) : State := Transition.run (step down) {} events

end Registry

end SingularityShell
