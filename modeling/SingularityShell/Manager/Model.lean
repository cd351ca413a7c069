import SingularityShell.Stage.Visibility
import Mathlib.Data.List.Perm.Basic

/-!
# `StageManager`: one stage for each monitor

The model of `core/stage/stage_manager.vala`. The manager keeps a `StageModel` for each connector,
knows on which connector every window is, tells the compositor which group a window is in and
which windows to hide, and reacts to what windows and monitors do.

## What the handlers read

A handler asks the desktop for the monitors, for the windows and their state, and the compositor
for the group a window was tagged with in an earlier session. What it is told is a `Desk`, and
every event carries the one its handler sees; nothing is assumed about how two of them relate.
Thumbnails, strips, rectangles, timers and log messages are left out: they read the state below
and change none of it.

## Maps

`_models` is a `World` and the list of the connectors that have a model, in the order in which the
map happens to be iterated; a connector without a model has a new one in the `World`, which is
what `ensure_model` gives it. The order of a hash map may be any, and may change whenever the map
does: the event `rehash` changes it. The other maps are only looked up, so they are functions.

## Main definitions

* `Desk`, `Manager`, `Handler`
* `Manager.step` — one handler
-/

namespace SingularityShell

/-- What a handler can find out about the desktop. -/
structure Desk (κ : Type*) where
  /-- `current_connectors`. -/
  connectors : List String
  /-- The connectors `connector_for` tries: the monitors of the display that match the window's. -/
  outputs : κ → List String
  /-- `get_mru_windows`. -/
  mru : List κ
  mru_nodup : mru.Nodup
  /-- The window exists and `is_stage_window`. -/
  isStageWindow : κ → Bool
  /-- `win.is_minimized`. -/
  isMinimized : κ → Bool
  /-- `win.app_id`. -/
  appId : κ → String
  /-- `StageBridge.groups_supported`. -/
  groupsSupported : Bool
  /-- The group `StageBridge.get_group` gives. -/
  group : κ → UInt32
  /-- Whether `StageBridge.get_group` says that the stage hid the window. -/
  hidden : κ → Bool

/-- `group` after the call of `get_group`, which is only made when groups are supported. -/
def Desk.tag {κ : Type*} (d : Desk κ) (key : κ) : UInt32 :=
  if d.groupsSupported then d.group key else 0

/-- `hidden` after that call. -/
def Desk.wasHidden {κ : Type*} (d : Desk κ) (key : κ) : Bool := d.groupsSupported && d.hidden key

/-- `_saved_active` and `_saved_order`. -/
structure Saved where
  active : String → Option UInt32
  order : String → Option (List UInt32)

/-- Nothing saved. -/
def Saved.none : Saved := ⟨fun _ => .none, fun _ => .none⟩

/-- Which window is where. -/
@[ext] structure Tracker (κ : Type*) where
  enabled : Bool
  /-- The models of `_models`, by connector. -/
  world : World String κ
  /-- The connectors that have a model in `_models`. -/
  names : List String
  /-- `_monitor_order`. -/
  monitorOrder : List String
  /-- `_monitor_of`. -/
  monitorOf : κ → Option String
  /-- The keys of `_windows`. -/
  windows : List κ
  /-- Every call that was made on a model so far. No handler reads it; it is what statements about
  the calls of a run are about. -/
  journal : List (Event String κ)

/-- What the compositor has been told about groups. -/
structure Tags (κ : Type*) where
  /-- `_tags`. -/
  tags : κ → Option UInt32
  /-- The group value that was last sent for a window with `StageBridge.set_group`. -/
  sentGroup : κ → Option UInt32

/-- The state of `activate_later` and `activate`. -/
structure Session where
  /-- The set the idle callback of `activate_later` activates, while one is pending. -/
  pendingActivate : Option UInt32
  /-- `_switching`. -/
  switching : Bool

/-- The fields of `StageManager`. -/
structure Manager (κ : Type*) extends Tracker κ, Tags κ, Session where
  saved : Saved
  /-- `_expected`. -/
  expected : κ → Option Bool

namespace Manager

variable {κ : Type*} [DecidableEq κ]

/-- The manager after construction. -/
def start : Manager κ where
  enabled := false
  world := .start .initial
  names := []
  monitorOrder := []
  monitorOf _ := none
  windows := []
  journal := []
  expected _ := none
  tags _ := none
  saved := .none
  pendingActivate := none
  switching := false
  sentGroup _ := none

variable (m : Manager κ) (d : Desk κ)

/-! ### The models -/

/-- `_models[connector]`. -/
def model (connector : String) : Stage κ := m.world.stage connector

/-- The id of the set of a window. -/
def ownerId (connector : String) (key : κ) : Option UInt32 :=
  ((m.model connector).owner key).map fun r => ((m.model connector).sets r).id

/-- A call on the models. -/
def perform (e : Event String κ) : Manager κ :=
  { m with world := m.world.step e, journal := m.journal ++ [e] }

/-- `_models[connector].method(..)`. -/
def call (connector : String) (c : Call κ) : Manager κ := m.perform (.on connector c)

/-- The plan that call returns. -/
def planOf (connector : String) (c : Call κ) : StagePlan κ := ((m.model connector).call c).2

/-- `monitor_of_set`. -/
def monitorOfSet (id : UInt32) : Option String :=
  m.names.find? fun c => ((m.model c).findSet id).isSome

/-- `primary_connector`. -/
def primaryConnector : String :=
  match m.monitorOrder with
  | c :: _ => c
  | [] => d.connectors.headD ""

/-- `connector_for`. -/
def connectorFor (key : κ) : String :=
  ((d.outputs key).find? fun c => c ∈ m.names).getD (m.primaryConnector d)

/-- `ensure_model`. -/
def ensureModel (connector : String) : Manager κ :=
  if connector ∈ m.names then m
  else
    { m with
      world := ⟨m.world.heap, Function.update m.world.models connector .fresh⟩
      names := m.names ++ [connector]
      monitorOrder :=
        if connector ∈ m.monitorOrder then m.monitorOrder else m.monitorOrder ++ [connector] }

/-- `_windows[key] = win; _monitor_of[key] = connector`. -/
def track (key : κ) (connector : String) : Manager κ :=
  { m with
    windows := if key ∈ m.windows then m.windows else m.windows ++ [key]
    monitorOf := Function.update m.monitorOf key (some connector) }

/-- `saved_active`. -/
def savedActive (connector : String) : UInt32 := (m.saved.active connector).getD 0

/-- `saved_order`. -/
def savedOrder (connector : String) : Option (List UInt32) := m.saved.order connector

/-! ### The compositor -/

/-- `set_hidden`. -/
def setHidden (hidden : Bool) (key : κ) : Manager κ :=
  if key ∈ m.windows ∧ d.isMinimized key ≠ hidden then
    { m with expected := Function.update m.expected key (some hidden) }
  else m

/-- `set_hidden` for the keys of a plan. -/
def applyPlan (hide show_ : List κ) : Manager κ :=
  show_.foldl (fun m key => m.setHidden d false key)
    (hide.foldl (fun m key => m.setHidden d true key) m)

/-- The body of the loops of `sync_tags`. -/
def syncTag (connector : String) (key : κ) : Manager κ :=
  let tag := (m.ownerId connector key).getD 0
  if m.tags key = some tag then m
  else if key ∈ m.windows then
    { m with
      tags := Function.update m.tags key (some tag)
      sentGroup := Function.update m.sentGroup key (some tag) }
  else m

/-- `sync_tags`. -/
def syncTags : Manager κ :=
  m.names.foldl (fun m c => (m.model c).allWindows.foldl (fun m key => m.syncTag c key) m) m

/-! ### Turning the stage on and off -/

/-- `reset_state`. -/
def resetState : Manager κ :=
  { m with
    world := .start m.world.heap
    names := []
    monitorOrder := []
    monitorOf _ := none
    windows := []
    tags _ := none
    expected _ := none }

/-- The beginning of `enable`, up to the loop over the windows. What `load_state` reads from the
state file is `saved`. -/
def enableStart (saved : Saved) : Manager κ :=
  let m := { m.resetState with enabled := true, saved := saved }
  let m := d.connectors.foldl ensureModel m
  if m.names = [] then m.ensureModel "" else m

/-- One round of the loop of `enable` over the windows. -/
def restoreOne (key : κ) : Manager κ :=
  if d.isStageWindow key then
    let connector := m.connectorFor d key
    (m.track key connector).call connector
      (.restoreWindow key (d.tag key) (d.isMinimized key) (d.wasHidden key))
  else m

/-- `restored`: some window of the stage has a group. -/
def restored : Bool :=
  d.mru.any fun key => d.isStageWindow key && d.tag key != 0

/-- The loop of `split_by_app`, over the windows from the last to the first. `sets` maps an
application to the set its windows go to. -/
def splitLoop (connector lead : String) :
    List κ → Manager κ → (String → Option UInt32) → Manager κ × List κ
  | [], m, _ => (m, [])
  | key :: keys, m, sets =>
    if d.appId key = lead then splitLoop connector lead keys m sets
    else
      let c := Call.moveWindow key ((sets (d.appId key)).getD 0)
      let m' := m.call connector c
      let sets' := match sets (d.appId key) with
        | some _ => sets
        | none => Function.update sets (d.appId key) (m'.ownerId connector key)
      let rest := splitLoop connector lead keys m' sets'
      (rest.1, (m.planOf connector c).hide ++ rest.2)

/-- `split_by_app`. -/
def splitByApp (connector : String) : Manager κ × List κ :=
  match (m.model connector).active with
  | none => (m, [])
  | some a =>
    match ((m.model connector).sets a).windows with
    | lead :: key :: keys =>
      splitLoop d connector (d.appId lead) (lead :: key :: keys).reverse m fun _ => none
    | _ => (m, [])

/-- The loop of `enable` over the monitors. The windows to hide and to show are collected. -/
def finishLoop : List String → Manager κ → Manager κ × List κ × List κ
  | [], m => (m, [], [])
  | connector :: connectors, m =>
    if restored d then
      let c := Call.restoreFinish (m.savedActive connector) (m.savedOrder connector)
      let plan := m.planOf connector c
      let rest := finishLoop connectors (m.call connector c)
      (rest.1, plan.hide ++ rest.2.1, plan.show_ ++ rest.2.2)
    else
      let split := m.splitByApp d connector
      let rest := finishLoop connectors split.1
      (rest.1, split.2 ++ rest.2.1, rest.2.2)

/-- `enable`. -/
def enable (saved : Saved) : Manager κ :=
  let m := d.mru.foldl (fun m key => m.restoreOne d key) (m.enableStart d saved)
  let r := finishLoop d m.monitorOrder m
  (r.1.applyPlan d r.2.1 r.2.2).syncTags

/-- One round of the loop of `disable`: the windows of a model lose their group. That the hidden
ones are shown again leaves no trace, because `_expected` is emptied afterwards. -/
def disableOne (connector : String) : Manager κ :=
  ({ m with
      sentGroup := fun key =>
        if key ∈ (m.model connector).allWindows ∧ key ∈ m.windows then some 0
        else m.sentGroup key } : Manager κ).call connector .clear

/-- `disable`. -/
def disable : Manager κ :=
  let m := m.names.foldl disableOne { m with enabled := false }
  { m.resetState with saved := .none }

/-- `apply_setting`. -/
def applySetting (want : Bool) (saved : Saved) : Manager κ :=
  if want = m.enabled then m else if want then m.enable d saved else m.disable

/-! ### Windows come, go and change monitors -/

/-- The active set that `on_window_opened` asks `restore_finish` to keep. -/
def keepActive (connector : String) : UInt32 :=
  match (m.model connector).active with
  | some a =>
    if ((m.model connector).sets a).windows ≠ [] then ((m.model connector).sets a).id
    else m.savedActive connector
  | none => m.savedActive connector

/-- `on_window_opened`. -/
def onWindowOpened (key : κ) : Manager κ :=
  if m.enabled ∧ d.isStageWindow key ∧ m.monitorOf key = none then
    let connector := m.connectorFor d key
    let m := (m.ensureModel connector).track key connector
    if d.tag key ≠ 0 then
      let m := m.call connector
        (.restoreWindow key (d.tag key) (d.isMinimized key) (d.wasHidden key))
      let c := Call.restoreFinish (m.keepActive connector) (m.savedOrder connector)
      let plan := m.planOf connector c
      ((m.call connector c).applyPlan d plan.hide plan.show_).syncTags
    else (m.call connector (.addWindow key)).syncTags
  else m

/-- `on_window_closed`. -/
def onWindowClosed (key : κ) : Manager κ :=
  match m.monitorOf key with
  | none => m
  | some connector =>
    if m.enabled ∧ connector ∈ m.names then
      { m.call connector (.removeWindow key) with
        windows := m.windows.erase key
        expected := Function.update m.expected key none
        tags := Function.update m.tags key none
        monitorOf := Function.update m.monitorOf key none }
    else m

/-- The part of `on_window_output_changed` that changes ownership. -/
def relocate (key : κ) (source target : String) : Manager κ :=
  let wasHidden := decide (key ∈ (m.model source).hidden)
  let m := ((m.call source (.removeWindow key)).ensureModel target).call target (.addWindow key)
  let m := if d.isMinimized key && !wasHidden then m.call target (.setUserMinimized key true) else m
  let m := { m with monitorOf := Function.update m.monitorOf key (some target) }
  if wasHidden then m.setHidden d false key else m

/-- `on_window_output_changed`. -/
def onWindowOutputChanged (key : κ) : Manager κ :=
  match m.monitorOf key with
  | none => m
  | some source =>
    if m.enabled ∧ m.switching = false ∧ source ≠ m.connectorFor d key ∧ source ∈ m.names then
      (m.relocate d key source (m.connectorFor d key)).syncTags
    else m

/-! ### Windows that change state, and switching sets -/

/-- `activate_later`. -/
def activateLater (id : UInt32) : Manager κ := { m with pendingActivate := some id }

/-- `on_window_state_changed`. -/
def onWindowStateChanged (key : κ) : Manager κ :=
  match m.monitorOf key with
  | none => m
  | some connector =>
    if m.enabled ∧ connector ∈ m.names then
      if m.expected key = some (d.isMinimized key) then
        { m with expected := Function.update m.expected key none }
      else if (m.model connector).owner key = (m.model connector).active then
        m.call connector (.setUserMinimized key (d.isMinimized key))
      else
        match m.ownerId connector key with
        | some id => if d.isMinimized key then m
          else (m.call connector (.markShown key)).activateLater id
        | none => m
    else m

/-- `on_window_focused`. -/
def onWindowFocused (key : κ) : Manager κ :=
  match m.monitorOf key with
  | none => m
  | some connector =>
    if m.enabled ∧ m.switching = false ∧ connector ∈ m.names then
      match m.ownerId connector key with
      | none => m
      | some id =>
        if (m.model connector).owner key = (m.model connector).active then m
        else if key ∉ m.windows ∨ d.isMinimized key ∨ m.expected key = some true then m
        else m.activateLater id
    else m

/-- `activate`. The windows of `plan.show` are shown in another order, which leaves no trace. -/
def activate (id : UInt32) : Manager κ :=
  match if m.enabled then m.monitorOfSet id else none with
  | none => m
  | some connector =>
    if (m.model connector).findSet id = (m.model connector).active then m
    else
      let plan := m.planOf connector (.activate id)
      { (({ m with switching := true } : Manager κ).call connector (.activate id)).applyPlan d
          plan.hide plan.show_ with switching := false }.syncTags

/-- The idle callback of `activate_later`. -/
def idle : Manager κ :=
  match m.pendingActivate with
  | none => m
  | some id => ({ m with pendingActivate := none } : Manager κ).activate d id

/-- `move_window`. -/
def moveWindow (key : κ) (targetId : UInt32) (connector : Option String) : Manager κ :=
  match if m.enabled then m.monitorOf key else none with
  | none => m
  | some home =>
    if connector ≠ none ∧ connector ≠ some home then m
    else if targetId ≠ 0 ∧ m.monitorOfSet targetId ≠ some home then m
    else
      let plan := m.planOf home (.moveWindow key targetId)
      ((m.call home (.moveWindow key targetId)).applyPlan d plan.hide plan.show_).syncTags

/-! ### Monitors come and go -/

/-- One round of the loop of `sync_monitors` over the monitors that are gone. -/
def retire (target connector : String) : Manager κ :=
  let m := { m with
    monitorOf := fun key =>
      if key ∈ (m.model connector).allWindows then some target else m.monitorOf key }
  let m := m.perform (.adopt target connector)
  { m with names := m.names.erase connector }

/-- `sync_monitors` up to its last loop. -/
def regroup (target : String) : Manager κ :=
  let m := d.connectors.foldl ensureModel m
  let gone := m.monitorOrder.filter fun c => c ∉ d.connectors
  gone.foldl (fun m c => m.retire target c) { m with monitorOrder := d.connectors }

/-- `sync_monitors`. -/
def syncMonitors : Manager κ :=
  match if m.enabled then d.connectors else [] with
  | [] => m
  | target :: _ =>
    let m := m.regroup d target
    m.windows.foldl (fun m key => m.onWindowOutputChanged d key) m

/-- `save_state`, on its timer. -/
def saveState : Manager κ :=
  if m.enabled then
    { m with
      saved :=
        { active := fun c => if c ∈ m.monitorOrder then
              some (((m.model c).active.map fun r => ((m.model c).sets r).id).getD 0)
            else m.saved.active c
          order := fun c => if c ∈ m.monitorOrder then some (m.model c).setOrder
            else m.saved.order c } }
  else m

end Manager

/-! ### Runs -/

/-- What the manager reacts to. -/
inductive Handler (κ : Type*)
  | applySetting (want : Bool) (saved : Saved) (d : Desk κ)
  | windowOpened (key : κ) (d : Desk κ)
  | windowClosed (key : κ)
  | windowOutputChanged (key : κ) (d : Desk κ)
  | windowStateChanged (key : κ) (d : Desk κ)
  | windowFocused (key : κ) (d : Desk κ)
  | idle (d : Desk κ)
  | activate (id : UInt32) (d : Desk κ)
  | moveWindow (key : κ) (targetId : UInt32) (connector : Option String) (d : Desk κ)
  | syncMonitors (d : Desk κ)
  | saveState
  | rehash (names : List String) (windows : List κ)

/-- One handler, run to its end. A `rehash` that is not a reordering is none. -/
def Manager.step {κ : Type*} [DecidableEq κ] (m : Manager κ) : Handler κ → Manager κ
  | .applySetting want saved d => m.applySetting d want saved
  | .windowOpened key d => m.onWindowOpened d key
  | .windowClosed key => m.onWindowClosed key
  | .windowOutputChanged key d => m.onWindowOutputChanged d key
  | .windowStateChanged key d => m.onWindowStateChanged d key
  | .windowFocused key d => m.onWindowFocused d key
  | .idle d => m.idle d
  | .activate id d => m.activate d id
  | .moveWindow key targetId connector d => m.moveWindow d key targetId connector
  | .syncMonitors d => m.syncMonitors d
  | .saveState => m.saveState
  | .rehash names windows =>
    if names.Perm m.names ∧ windows.Perm m.windows then
      { m with names := names, windows := windows }
    else m

/-- Two monitors with a window each, `a` on the first and `b` on the second, and the groups the
compositor kept for them. -/
def Desk.twoMonitors (group : String → UInt32) : Desk String where
  connectors := ["DP-1", "DP-2"]
  outputs key := if key = "a" then ["DP-1"] else ["DP-2"]
  mru := ["a", "b"]
  mru_nodup := by decide
  isStageWindow _ := true
  isMinimized _ := false
  appId key := key
  groupsSupported := true
  group := group
  hidden _ := false

end SingularityShell
