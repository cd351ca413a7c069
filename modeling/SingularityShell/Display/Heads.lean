import Mathlib.Data.Rat.Defs
import SingularityShell.Lib.Ascii
import SingularityShell.Lib.Transition

/-!
# Output heads

The compositor announces its outputs as heads, the heads' values and their modes. They are kept in a
list, and copied into the monitors of the settings whenever the compositor says that it is done.

## Main definitions

* `Display.HeadData`, `Display.Monitor` — a head as it was announced, and the monitor that shows it
* `Display.outputManagerDone` — the heads are copied into the monitors
* `Display.step` — one event of the output management
-/

namespace SingularityShell

namespace Display

/-- What a callback is given for a head: the head, or the data that is kept of it. -/
inductive Pointer where
  | head (id : ℕ)
  | headData (id : ℕ)
  deriving DecidableEq

/-! ### The heads -/

/-- `ModeEntry`, and whether the mode's own data is there, with which its events arrive. -/
structure ModeEntry where
  mode : ℕ
  width : ℤ := 0
  height : ℤ := 0
  refresh : ℤ := 0
  listens : Bool := true
  deriving DecidableEq

structure HeadData where
  head : ℕ
  name : Option Ascii.Text := none
  description : Option Ascii.Text := none
  make : Option Ascii.Text := none
  model : Option Ascii.Text := none
  serialNumber : Option Ascii.Text := none
  physWidth : ℤ := 0
  physHeight : ℤ := 0
  x : ℤ := 0
  y : ℤ := 0
  transform : ℤ := 0
  scale : ℚ := 0
  enabled : Bool := false
  adaptiveSyncState : ℕ := 0
  modes : List ModeEntry := []
  currentMode : Option ℕ := none
  deriving DecidableEq

/-- The events of a head, but for its end. A scale is a number of 256ths. -/
inductive HeadEvent where
  | name (name : Ascii.Text)
  | description (description : Ascii.Text)
  | make (make : Ascii.Text)
  | model (model : Ascii.Text)
  | serialNumber (serialNumber : Ascii.Text)
  | physicalSize (width height : ℤ)
  | mode (mode : ℕ)
  | enabled (enabled : ℤ)
  | currentMode (mode : ℕ)
  | position (x y : ℤ)
  | transform (transform : ℤ)
  | scale (fixed : ℤ)
  | adaptiveSync (state : ℕ)

inductive ModeEvent where
  | size (width height : ℤ)
  | refresh (refresh : ℤ)
  | preferred
  | finished

/-- The handlers of `head_listener`, as far as they change the data of the head. -/
def HeadData.handle (hd : HeadData) : HeadEvent → HeadData
  | .name name => { hd with name := some name }
  | .description description => { hd with description := some description }
  | .make make => { hd with make := some make }
  | .model model => { hd with model := some model }
  | .serialNumber serialNumber => { hd with serialNumber := some serialNumber }
  | .physicalSize width height => { hd with physWidth := width, physHeight := height }
  | .mode mode => { hd with modes := { mode } :: hd.modes }
  | .enabled enabled => { hd with enabled := decide (enabled ≠ 0) }
  | .currentMode mode => { hd with currentMode := some mode }
  | .position x y => { hd with x, y }
  | .transform transform => { hd with transform }
  | .scale fixed => { hd with scale := fixed / 256 }
  | .adaptiveSync state => { hd with adaptiveSyncState := state }

/-- The handlers of `mode_listener`. The end of a mode frees the mode's own data only, and whether
it is preferred is kept nowhere else. -/
def ModeEntry.handle (entry : ModeEntry) : ModeEvent → ModeEntry
  | .size width height => { entry with width, height }
  | .refresh refresh => { entry with refresh }
  | .preferred => entry
  | .finished => { entry with listens := false }

/-! ### The monitors -/

structure Mode where
  width : ℤ
  height : ℤ
  refresh : ℤ
  preferred : Bool
  deriving DecidableEq

structure Monitor where
  headHandle : Pointer
  name : Option Ascii.Text := none
  description : Option Ascii.Text := none
  make : Option Ascii.Text := none
  model : Option Ascii.Text := none
  serial : Option Ascii.Text := none
  physWidth : ℤ := 0
  physHeight : ℤ := 0
  x : ℤ := 0
  y : ℤ := 0
  scale : ℚ := 1
  transform : ℤ := 0
  enabled : Bool := true
  vrrSupported : Bool := false
  vrrEnabled : Bool := false
  modes : List Mode := []
  currentMode : Option Mode := none
  deriving DecidableEq

/-- `clamp_scale`, with `MIN_SCALE` and `MAX_SCALE`. -/
def clampScale (value : ℚ) : ℚ := if ¬1 ≤ value then 1 else if ¬value ≤ 16 then 16 else value

/-- The loop of the handlers: the first monitor with the handle is changed. -/
def withMonitor (handle : Pointer) (f : Monitor → Monitor) : List Monitor → List Monitor
  | [] => []
  | m :: monitors =>
    if m.headHandle = handle then f m :: monitors else m :: withMonitor handle f monitors

/-- `handle_update_head` -/
def handleUpdateHead (handle : Pointer) (name description : Option Ascii.Text)
    (physW physH x y transform : ℤ) (scale : ℚ) (enabled : Bool) : List Monitor → List Monitor :=
  withMonitor handle fun m => { m with
    name := name.orElse fun _ => m.name
    description := description.orElse fun _ => m.description
    physWidth := physW
    physHeight := physH
    x, y, transform, enabled
    scale := clampScale scale }

/-- `handle_update_head_info` -/
def handleUpdateHeadInfo (handle : Pointer) (make model serial : Option Ascii.Text) :
    List Monitor → List Monitor :=
  withMonitor handle fun m => { m with
    make := make.orElse fun _ => m.make
    model := model.orElse fun _ => m.model
    serial := serial.orElse fun _ => m.serial }

/-- `handle_add_mode` -/
def handleAddMode (handle : Pointer) (width height refresh : ℤ) (preferred : Bool) :
    List Monitor → List Monitor :=
  withMonitor handle fun m =>
    let mode : Mode := ⟨width, height, refresh, preferred⟩
    { m with
      modes := m.modes ++ [mode]
      currentMode := if preferred ∧ m.currentMode = none then some mode else m.currentMode }

/-- `handle_set_current_mode`. A monitor without the mode does not end the loop. -/
def handleSetCurrentMode (handle : Pointer) (width height refresh : ℤ) : List Monitor → List Monitor
  | [] => []
  | m :: monitors =>
    if m.headHandle = handle then
      match m.modes.find? fun mode =>
        mode.width = width && mode.height = height && mode.refresh = refresh with
      | some mode => { m with currentMode := some mode } :: monitors
      | none => m :: handleSetCurrentMode handle width height refresh monitors
    else m :: handleSetCurrentMode handle width height refresh monitors

/-- `handle_adaptive_sync_changed` -/
def handleAdaptiveSyncChanged (handle : Pointer) (state : ℕ) : List Monitor → List Monitor :=
  withMonitor handle fun m => { m with vrrSupported := true, vrrEnabled := decide (state = 1) }

/-! ### The state -/

structure State where
  /-- `heads_list`, the newest first. -/
  heads : List HeadData := []
  monitors : List Monitor := []
  serial : ℕ := 0
  topologyChanged : Bool := true
  /-- Whether `_restore_timeout_id` is set. -/
  restoreTimeout : Bool := false

/-- `handle_set_serial` -/
def handleSetSerial (serial : ℕ) (s : State) : State :=
  if s.topologyChanged then { s with serial, topologyChanged := false, restoreTimeout := true }
  else { s with serial }

/-- The body of the inner loop of `output_manager_done`. -/
def replayMode (hd : HeadData) (monitors : List Monitor) (entry : ModeEntry) : List Monitor :=
  let handle := Pointer.head hd.head
  if hd.currentMode = some entry.mode then
    handleSetCurrentMode handle entry.width entry.height entry.refresh
      (handleAddMode handle entry.width entry.height entry.refresh true monitors)
  else handleAddMode handle entry.width entry.height entry.refresh false monitors

/-- The body of the outer loop. -/
def replayHead (monitors : List Monitor) (hd : HeadData) : List Monitor :=
  let handle := Pointer.head hd.head
  let updated := handleUpdateHead handle hd.name hd.description hd.physWidth hd.physHeight hd.x hd.y
    hd.transform hd.scale hd.enabled monitors
  hd.modes.foldl (replayMode hd)
    (handleUpdateHeadInfo handle hd.make hd.model hd.serialNumber updated)

/-- `output_manager_done` -/
def outputManagerDone (serial : ℕ) (s : State) : State :=
  let s := handleSetSerial serial s
  { s with monitors := s.heads.foldl replayHead s.monitors }

/-- `output_manager_head` -/
def outputManagerHead (id : ℕ) (s : State) : State :=
  { s with
    heads := { head := id } :: s.heads
    monitors := s.monitors ++ [{ headHandle := .head id }]
    topologyChanged := true }

/-- `head_handle_finished` -/
def headHandleFinished (id : ℕ) (s : State) : State :=
  let known := s.monitors.any (·.headHandle = .head id)
  { s with
    heads := s.heads.eraseP (·.head = id)
    monitors := s.monitors.eraseP (·.headHandle = .head id)
    topologyChanged := s.topologyChanged || known }

/-- `head_handle_adaptive_sync` calls the display manager by itself. -/
def tellAdaptiveSync (id : ℕ) (e : HeadEvent) (monitors : List Monitor) : List Monitor :=
  match e with
  | .adaptiveSync state => handleAdaptiveSyncChanged (.headData id) state monitors
  | _ => monitors

/-! ### Events -/

inductive Event where
  | head (id : ℕ)
  | onHead (id : ℕ) (e : HeadEvent)
  | onMode (mode : ℕ) (e : ModeEvent)
  | finished (id : ℕ)
  | done (serial : ℕ)

/-- Whether an event can arrive: a head or a mode that is announced is not there yet, any other
event is of one that is there, and the current mode is one of the modes of its head. -/
def Arrives (heads : List HeadData) : Event → Bool
  | .head id => !heads.any (·.head = id)
  | .onHead id (.mode mode) =>
    heads.any (·.head = id) && !heads.any fun hd => hd.modes.any (·.mode = mode)
  | .onHead id (.currentMode mode) =>
    heads.any fun hd => hd.head = id && hd.modes.any fun entry => entry.mode = mode && entry.listens
  | .onHead id _ => heads.any (·.head = id)
  | .onMode mode _ =>
    heads.any fun hd => hd.modes.any fun entry => entry.mode = mode && entry.listens
  | .finished id => heads.any (·.head = id)
  | .done _ => true

def handle (s : State) : Event → State
  | .head id => outputManagerHead id s
  | .onHead id e =>
    { s with
      heads := s.heads.map fun hd => if hd.head = id then hd.handle e else hd
      monitors := tellAdaptiveSync id e s.monitors }
  | .onMode mode e =>
    { s with heads := s.heads.map fun hd =>
        { hd with modes := hd.modes.map fun entry =>
            if entry.mode = mode then entry.handle e else entry } }
  | .finished id => headHandleFinished id s
  | .done serial => outputManagerDone serial s

def step (s : State) (e : Event) : State := if Arrives s.heads e then handle s e else s

/-- The state after the events. -/
def run (events : List Event) : State := Transition.run step {} events

end Display

end SingularityShell
