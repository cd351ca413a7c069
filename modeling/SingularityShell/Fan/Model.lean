import SingularityShell.Fan.Curve
import SingularityShell.Lib.Binary64
import SingularityShell.Lib.Transition

/-!
# The fan controller

`FanController` finds the channels of the fan chips, writes curves to them or drives them itself,
and gives them back to the firmware. What it has to remember is in three files: the table that the
firmware had, the curves of the user, and the channels that it drives.

## Main definitions

* `Fan.Board` — a channel as the kernel shows it, and what its chip keeps of what is written
* `Fan.Moment` — what is outside of the controller while it does something
* `Fan.Station` — the files of a channel, what the controller knows of it, and what is remembered
* `Fan.classify`, `Fan.apply`, `Fan.tick`, `Fan.reset`, `Fan.reapplySaved` — what is done to a
  channel
* `Fan.Event`, `Fan.step` — the controller with all of its channels
-/

namespace SingularityShell

namespace Fan

open Binary64 Machine Rounding

/-- A file of a channel: `pwmN_enable`, `pwmN`, `pwmN_auto_pointM_temp` and
`pwmN_auto_pointM_pwm`. -/
inductive File where
  | enable
  | pwm
  | pointTemp (point : ℕ)
  | pointPwm (point : ℕ)
  deriving DecidableEq

structure Board where
  driver : String
  chip : String
  /-- the parameter of `thinkpad_acpi`, unless it cannot be read -/
  fanControl : Option String
  isWritable : File → Bool
  /-- what a file shows after a number was written to it: an `int` -/
  keeps : File → ℤ → ℤ
  keeps_int : ∀ file value, wrap32 (keeps file value) = keeps file value

/-- The sensors, the writes that succeed and the files that can be read. -/
structure Moment (F : Type*) where
  crit : ℤ
  millidegrees : ℤ
  accepts : F → ℤ → Bool
  answers : F → Bool

inductive Method where
  | unsupported
  | hardware
  | software
  deriving DecidableEq

inductive Active where
  | firmware
  | hardware
  | software
  deriving DecidableEq

structure FanChannel where
  method : Method := .unsupported
  reason : String := ""
  maxPoints : ℕ := Fan.maxPoints
  chipPoints : ℕ := 0
  probed : Bool := false
  curve : Option FanCurve := none
  active : Active := .firmware
  firmwareEnable : ℤ := 2
  lastPercent : ℤ := 100

/-- A group of `firmware.conf`. -/
structure Snapshot where
  enable : ℤ
  /-- temperatures and speeds -/
  table : Option (List ℤ × List ℤ)

structure Station where
  files : File → ℤ
  channel : FanChannel := {}
  /-- the group of the channel in `firmware.conf` -/
  firmware : Option Snapshot
  /-- the one in `curves.conf` -/
  saved : Option FanCurve
  /-- the one in `manual.conf` -/
  manual : Option ℤ

def softwareDrivers : List String :=
  ["nct6775", "it87", "f71882fg", "thinkpad_hwmon", "dell_smm_hwmon", "amdgpu"]

def hardwareDrivers : List String := ["nct6775"]

def hardwareCurveEnable : ℤ := 5

/-- A control mode of the firmware. -/
def firmwareMode (enable : ℤ) : ℤ := if 2 ≤ enable then enable else 2

section
variable (board : Board) (m : Moment File) (s : Station)

/-! ### Files -/

/-- `write_value` -/
def write (file : File) (value : ℤ) : Station × Bool :=
  if m.accepts file value then
    ({ s with files := Function.update s.files file (board.keeps file value) }, true)
  else (s, false)

/-- `read_int`: an `int64`, which is cast to an `int`. -/
def readInt (file : File) (fallback : ℤ) : ℤ :=
  if m.answers file then wrap32 (s.files file) else fallback

/-- The values are written one after the other, whether or not the last write has succeeded. -/
def writeAll (values : List (File × ℤ)) : Station :=
  values.foldl (fun s value => (write board m s value.1 value.2).1) s

/-- The values are written until a write fails. -/
def writeUntil (s : Station) : List (File × ℤ) → Station × Bool
  | [] => (s, true)
  | value :: values =>
    let written := write board m s value.1 value.2
    if written.2 then writeUntil written.1 values else (written.1, false)

/-- The values of the points of a table. -/
def assignments (temps pwms : List ℤ) : List (File × ℤ) :=
  (List.range (min temps.length pwms.length)).flatMap fun i =>
    [(.pointTemp (i + 1), temps.getD i 0), (.pointPwm (i + 1), pwms.getD i 0)]

/-! ### Finding out what a channel is -/

def tablePoints : ℕ :=
  ((List.range 16).takeWhile fun i =>
    board.isWritable (.pointTemp (i + 1)) && board.isWritable (.pointPwm (i + 1))).length

def refuse (reason : String) : Station :=
  { s with channel := { s.channel with probed := true, method := .unsupported, reason := reason } }

def classify : Station :=
  let name := if board.driver ≠ "" then board.driver else board.chip
  if board.driver ∉ softwareDrivers then
    refuse s ("The " ++ name ++ " driver is not a supported fan controller")
  else if board.driver = "thinkpad_hwmon" ∧
      board.fanControl ≠ some "y" ∧ board.fanControl ≠ some "Y" then
    refuse s "The kernel keeps ThinkPad fan control disabled (thinkpad_acpi fan_control=0)"
  else
    let enable := readInt m s .enable (-1)
    if enable < 0 then refuse s "The fan controller does not report its control mode"
    else
      let written := write board m s .enable enable
      if !written.2 then refuse s "The kernel rejected a write to the fan controller"
      else
        let points := tablePoints board
        let isHardware := board.driver ∈ hardwareDrivers ∧ minPoints ≤ points
        { written.1 with channel := { s.channel with
          probed := true
          reason := ""
          firmwareEnable := firmwareMode enable
          chipPoints := points
          method := if isHardware then .hardware else .software
          maxPoints := if isHardware then min points Fan.maxPoints else Fan.maxPoints } }

/-! ### What is remembered -/

def snapshotFirmware : Station :=
  match s.firmware with
  | some _ => s
  | none =>
    let points := List.range s.channel.chipPoints
    let temps := points.map fun i => readInt m s (.pointTemp (i + 1)) 0
    let pwms := points.map fun i => readInt m s (.pointPwm (i + 1)) 255
    { s with firmware := some ⟨s.channel.firmwareEnable,
      if 0 < temps.length then some (temps, pwms) else none⟩ }

def saveCurve : Station := { s with saved := s.channel.curve }

def recordManual (manual : Bool) : Station :=
  { s with manual := if manual then some s.channel.firmwareEnable else none }

/-- What `restore_from_state` does to a channel. -/
def restoreFromState : Station :=
  match s.manual with
  | none => s
  | some enable => { (write board m s .enable (firmwareMode enable)).1 with manual := none }

def restoreTable (snapshot : Snapshot) : Station :=
  match snapshot.table with
  | none => s
  | some (temps, pwms) => writeAll board m s (assignments temps pwms)

def restoreFirmwareSnapshot : Station :=
  let restored := match s.firmware with
    | none => s
    | some snapshot =>
      { restoreTable board m s snapshot with
        channel := { s.channel with firmwareEnable := snapshot.enable } }
  (write board m restored .enable (firmwareMode restored.channel.firmwareEnable)).1

/-! ### Curves -/

def toPwm (percent : ℤ) : ℤ := roundAway (fl (percent * 255 / 100))

/-- The table that a curve becomes in a chip with more points. -/
def hardwareTable (chipPoints : ℕ) (curve : FanCurve) (crit : ℤ) : List ℤ × List ℤ :=
  let n := curve.temps.length
  let points := List.range chipPoints
  (points.map fun i =>
      if i < n then curve.temps.getD i 0
      else min (wrap32 (curve.temps.getD (n - 1) 0 + (i - n + 1) * 1000)) crit,
    points.map fun i => if i < n then toPwm (curve.percents.getD i 0) else 255)

def writeHardwareCurve (curve : FanCurve) (crit : ℤ) : Station × Option FanControlError :=
  let table := hardwareTable s.channel.chipPoints curve crit
  let written :=
    writeUntil board m s (assignments table.1 table.2 ++ [(.enable, hardwareCurveEnable)])
  let verified := (List.range s.channel.chipPoints).all fun i =>
    |wrap32 (readInt m written.1 (.pointTemp (i + 1)) (-1) - table.1.getD i 0)| ≤ 1000 &&
      |wrap32 (readInt m written.1 (.pointPwm (i + 1)) (-1) - table.2.getD i 0)| ≤ 4
  if written.2 && verified && readInt m written.1 .enable (-1) == hardwareCurveEnable then
    ({ written.1 with
      channel := { s.channel with curve := some curve, active := .hardware } }, none)
  else (restoreFirmwareSnapshot board m written.1, some ⟨.writeFailed,
    "The fan chip did not accept the curve; firmware control was restored"⟩)

def release : Station :=
  { (write board m s .enable s.channel.firmwareEnable).1 with
    channel := { s.channel with active := .firmware }
    manual := none }

/-- `drive`; a channel that is driven has a curve. -/
def drive : Station :=
  match s.channel.curve with
  | none => s
  | some curve =>
    if m.millidegrees ≤ 0 then release board m s
    else
      let percent := nextPercent curve m.millidegrees m.crit s.channel.lastPercent
      let written := write board m s .pwm (toPwm percent)
      if !written.2 then release board m s
      else { written.1 with channel := { s.channel with lastPercent := percent } }

def startSoftwareCurve (curve : FanCurve) : Station × Option FanControlError :=
  let written := write board m (recordManual s true) .enable 1
  if !written.2 then
    (recordManual s false, some ⟨.writeFailed, "The fan controller refused manual mode"⟩)
  else
    (drive board m { written.1 with channel := { s.channel with
      curve := some curve, active := .software, lastPercent := 100 } }, none)

/-- The curve is written to the chip, or the channel is driven. -/
def putCurve (curve : FanCurve) (crit : ℤ) : Station × Option FanControlError :=
  if s.channel.method = .hardware then writeHardwareCurve board m s curve crit
  else startSoftwareCurve board m s curve

/-- `apply`, for a channel that was found. -/
def apply (temps percents : List ℤ) : Station × Option FanControlError :=
  if s.channel.method = .unsupported then (s, some ⟨.unsupported, s.channel.reason⟩)
  else match validate s.channel.maxPoints temps percents m.crit with
    | .error e => (s, some e)
    | .ok () =>
      let result := putCurve board m (snapshotFirmware m s) ⟨temps, percents⟩ m.crit
      if result.2 = none then (saveCurve result.1, none) else result

/-- What `tick` does to a channel. -/
def tick : Station :=
  if s.channel.active ≠ .software then s
  else if readInt m s .enable (-1) ≠ 1 then
    { s with channel := { s.channel with active := .firmware }, manual := none }
  else drive board m s

/-- What `release_all` does to a channel. -/
def releaseAll : Station := if s.channel.active ≠ .software then s else release board m s

/-- `reset`, for a channel that was found. -/
def reset : Station × Option FanControlError :=
  if s.channel.method = .unsupported then (s, some ⟨.unsupported, s.channel.reason⟩)
  else
    let restored := restoreFirmwareSnapshot board m (releaseAll board m s)
    (saveCurve { restored with channel :=
      { restored.channel with curve := none, active := .firmware } }, none)

/-- What `reapply_saved` does to a channel. -/
def reapplySaved : Station :=
  if s.channel.method = .unsupported then s
  else match s.saved with
    | none => s
    | some curve => (apply board m s curve.temps curve.percents).1

/-- The service starts: it has forgotten what it knew of the channel. -/
def start : Station :=
  reapplySaved board m (classify board m { restoreFromState board m s with channel := {} })

end

/-! ### All channels -/

variable {Id : Type*} [DecidableEq Id]

def Moment.of (m : Moment (Id × File)) (id : Id) : Moment File where
  crit := m.crit
  millidegrees := m.millidegrees
  accepts file := m.accepts (id, file)
  answers file := m.answers (id, file)

inductive Event (Id : Type*) where
  | start (m : Moment (Id × File))
  | apply (id : Id) (temps percents : List ℤ) (m : Moment (Id × File))
  | tick (m : Moment (Id × File))
  | reset (id : Id) (m : Moment (Id × File))
  | reapplySaved (m : Moment (Id × File))
  | releaseAll (m : Moment (Id × File))

def step (boards : Id → Board) (stations : Id → Station) : Event Id → Id → Station
  | .start m => fun id => start (boards id) (m.of id) (stations id)
  | .apply id temps percents m =>
    Function.update stations id (apply (boards id) (m.of id) (stations id) temps percents).1
  | .tick m => fun id => tick (boards id) (m.of id) (stations id)
  | .reset id m => Function.update stations id (reset (boards id) (m.of id) (stations id)).1
  | .reapplySaved m => fun id => reapplySaved (boards id) (m.of id) (stations id)
  | .releaseAll m => fun id => releaseAll (boards id) (m.of id) (stations id)

end Fan

end SingularityShell
