import SingularityShell.Lib.Json
import SingularityShell.Lib.Machine

/-!
# Focus modes

A focus mode holds back notifications. It is switched on by hand, by a schedule, while the user is
presenting, or while a window fills the screen.

## Main definitions

* `Focus.FocusSchedule`, `Focus.FocusPerson`, `Focus.FocusMode` — a mode
* `Focus.FocusModeSet`, `Focus.FocusModeSet.defaults` — the modes of a user
* `Focus.FocusModeSet.uniqueId` — the identifier of a new mode
* `Focus.FocusModeSet.evaluate` — the mode that is on, and why
-/

namespace SingularityShell

namespace Focus

open Ascii Machine

/-! ### Schedules -/

/-- A local time, with the days of the week from 1 for Monday to 7. -/
structure DateTime where
  dayOfWeek : ℕ
  hour : ℕ
  minute : ℕ
  deriving DecidableEq

/-- `ALL_DAYS` -/
def allDays : Int32 := 0x7f

structure FocusSchedule where
  days : Int32 := allDays
  startMinute : ℤ := 22 * 60
  endMinute : ℤ := 7 * 60
  enabled : Bool := true
  deriving DecidableEq

namespace FocusSchedule

/-- `clamp(0, 24 * 60 - 1)` -/
def clampMinute (minute : ℤ) : ℤ := if minute > 1439 then 1439 else if minute < 0 then 0 else minute

/-- The constructor. -/
def new (days : Int32) (startMinute endMinute : ℤ) (enabled : Bool) : FocusSchedule :=
  { days, startMinute := clampMinute startMinute, endMinute := clampMinute endMinute, enabled }

def hasDay (s : FocusSchedule) (dayOfWeek : ℕ) : Bool :=
  s.days &&& ((1 : Int32) <<< (Int32.ofNat (dayOfWeek - 1))) ≠ 0

def covers (s : FocusSchedule) (time : DateTime) : Bool :=
  if !s.enabled ∨ s.days = 0 then false
  else
    let minute : ℤ := time.hour * 60 + time.minute
    let today := time.dayOfWeek
    if s.startMinute = s.endMinute then s.hasDay today
    else if s.startMinute < s.endMinute then
      s.hasDay today && minute ≥ s.startMinute && minute < s.endMinute
    else if minute ≥ s.startMinute then s.hasDay today
    else
      let yesterday := if today = 1 then 7 else today - 1
      minute < s.endMinute && s.hasDay yesterday

end FocusSchedule

/-! ### Modes -/

structure FocusPerson where
  name : Text
  handles : List Text
  deriving DecidableEq

structure FocusMode where
  id : Text
  name : Text
  iconName : Text
  builtin : Bool := false
  allowTimeSensitive : Bool := true
  whilePresenting : Bool := false
  whileFullscreen : Bool := false
  allowedApps : List Text := []
  allowedPeople : List FocusPerson := []
  schedules : List FocusSchedule := []
  deriving DecidableEq

/-- `DO_NOT_DISTURB` -/
def doNotDisturb : Text := ofString "do-not-disturb"

def FocusMode.scheduledAt (m : FocusMode) (time : DateTime) : Bool :=
  m.schedules.any (·.covers time)

inductive FocusReason where
  | none
  | manual
  | schedule
  | presenting
  | fullscreen
  deriving DecidableEq

/-- A state of the focus: a mode with the reason why it is on, or no mode. -/
abbrev FocusState := Option (FocusMode × FocusReason)

namespace FocusState

/-- The reason of a state, which is none when there is no mode. -/
def reason (state : FocusState) : FocusReason :=
  match state with
  | some (_, reason) => reason
  | Option.none => .none

/-- The identifier of the mode that is on. -/
def modeId (state : FocusState) : Option Text := state.map (·.1.id)

end FocusState

structure FocusModeSet where
  modes : List FocusMode := []
  deriving DecidableEq

namespace FocusModeSet

/-- `defaults` -/
def defaults : FocusModeSet where
  modes :=
    [{ id := doNotDisturb, name := ofString "Do Not Disturb"
       iconName := ofString "notifications-disabled-symbolic"
       builtin := true, allowTimeSensitive := false },
      { id := ofString "work", name := ofString "Work", iconName := ofString "focus-work-symbolic"
        builtin := true, whilePresenting := true },
      { id := ofString "sleep", name := ofString "Sleep",
        iconName := ofString "focus-sleep-symbolic"
        builtin := true, schedules := [.new allDays (23 * 60) (7 * 60) false] },
      { id := ofString "personal", name := ofString "Personal"
        iconName := ofString "focus-personal-symbolic", builtin := true }]

variable (set : FocusModeSet)

def find (id : Text) : Option FocusMode := set.modes.find? (·.id = id)

/-- `evaluate` -/
def evaluate (manualId : Text) (now : DateTime) (presenting fullscreen : Bool) : FocusState :=
  match if manualId ≠ [] then set.find manualId else none with
  | some manual => some (manual, .manual)
  | none =>
    match set.modes.find? (·.scheduledAt now) with
    | some m => some (m, .schedule)
    | none =>
      match if presenting then set.modes.find? (·.whilePresenting) else none with
      | some m => some (m, .presenting)
      | none =>
        match if fullscreen then set.modes.find? (·.whileFullscreen) else none with
        | some m => some (m, .fullscreen)
        | none => none

/-! ### Identifiers of new modes -/

/-- `isalnum` of a byte in the C locale. -/
def isAlnum (b : UInt8) : Bool := isDigit b || (97 ≤ b && b ≤ 122) || (65 ≤ b && b ≤ 90)

/-- The loop over the characters of a name in lower case. -/
def slugLoop (slug : Text) : Text → Text
  | [] => slug
  | c :: name =>
    if isAlnum c then slugLoop (slug ++ [c]) name
    else if slug ≠ [] ∧ slug.getLast? ≠ some 45 then slugLoop (slug ++ [45]) name
    else slugLoop slug name

/-- The part of an identifier that comes from the name. -/
def slug (down : Text) : Text := (strip (slugLoop [] down)).rdropWhile (· = 45)

/-- The loop that counts until a candidate is free. -/
def firstFree (baseId : Text) : ℕ → ℕ → Text → Text
  | 0, _, candidate => candidate
  | fuel + 1, n, candidate =>
    if (set.find candidate).isSome then
      firstFree baseId fuel (n + 1) (baseId ++ 45 :: decimal n)
    else candidate

/-- `unique_id`, of a name in lower case. More candidates than there are modes are never tried. -/
def uniqueId (down : Text) : Text :=
  let slug := slug down
  let baseId := if slug ≠ [] then ofString "custom-" ++ slug else ofString "custom"
  set.firstFree baseId (set.modes.length + 1) 2 baseId

end FocusModeSet

end Focus

end SingularityShell
