import SingularityShell.Lib.Json

/-!
# The history of notifications

The notification manager hands out identifiers, keeps a history, and writes the history to a file
from which the next manager restores it.

## Main definitions

* `Notifications.Notification`, `Notifications.NotificationManager` — an entry, and the manager
* `Notifications.prune`, `serialize`, `deserialize`, `readNextId` — the file of the history
* `Notifications.NotificationManager.notify` — a notification of a client
* `Notifications.NotificationManager.step` — one call, or a restart
-/

namespace SingularityShell

namespace Notifications

open Ascii Utf8

/-- A string that comes over the bus: UTF-8 without a zero byte. -/
abbrev BusString := { text : Text // IsString text }

structure Notification where
  id : UInt32
  appName : Text
  summary : Text
  body : Text
  icon : Text
  timestamp : Int64
  appKey : Text := []
  desktopEntry : Text := []
  silenced : Bool := false
  timeSensitive : Bool := false
  restored : Bool := false
  lockScreen : Text := ofString "hide-content"
  grouping : Text := ofString "app"

/-- What the rules have decided about a notification. -/
structure NotificationDecision where
  store : Bool
  banner : Bool
  silenced : Bool
  timeSensitive : Bool
  lockScreen : BusString

/-- The settings for notifications, if there are any. -/
structure AppNotificationSettings where
  historyRetentionDays : Int32
  historyLimit : Int32

/-- `retention_days` -/
def retentionDays : Option AppNotificationSettings → Int32
  | some ns => ns.historyRetentionDays
  | none => 0

/-- `DEFAULT_LIMIT` -/
def defaultLimit : ℤ := 200

/-- `history_limit` -/
def historyLimit : Option AppNotificationSettings → ℤ
  | some ns => if ns.historyLimit > 0 then ns.historyLimit.toInt else defaultLimit
  | none => defaultLimit

/-! ### The file -/

variable (lib : Json.Library)

/-- The loop of `prune` over the notifications. -/
def pruneLoop (cutoff : Int64) (limit : ℤ) : List Notification → List Notification →
    List Notification
  | [], kept => kept
  | n :: items, kept =>
    if n.timestamp < cutoff then pruneLoop cutoff limit items kept
    else if limit > 0 ∧ kept.length ≥ limit then kept
    else pruneLoop cutoff limit items (kept ++ [n])

/-- `prune` -/
def prune (items : List Notification) (retentionDays : Int32) (now : Int64) (limit : ℤ) :
    List Notification :=
  let cutoff : Int64 :=
    if retentionDays > 0 then now - retentionDays.toInt64 * 86400 * 1000000 else Int64.minValue
  pruneLoop cutoff limit items []

/-- An element of the array of notifications. -/
def Notification.toJson (n : Notification) : Json :=
  .object
    [(ofString "id", .int n.id.toNat),
      (ofString "app-name", .string n.appName),
      (ofString "app-key", .string n.appKey),
      (ofString "desktop-entry", .string n.desktopEntry),
      (ofString "summary", .string n.summary),
      (ofString "body", .string n.body),
      (ofString "icon", .string n.icon),
      (ofString "timestamp", .int n.timestamp.toInt),
      (ofString "silenced", .bool n.silenced),
      (ofString "time-sensitive", .bool n.timeSensitive),
      (ofString "lock-screen", .string n.lockScreen),
      (ofString "grouping", .string n.grouping)]

/-- `serialize`, before the generator writes it as a text. -/
def serialize (items : List Notification) (nextId : UInt32) : Json :=
  .object
    [(ofString "version", .int 1),
      (ofString "next-id", .int nextId.toNat),
      (ofString "notifications", .array (items.map (·.toJson)))]

/-- `str_member` -/
def strMember (o : List (Text × Json)) (name : String) (fallback : Text := []) : Text :=
  match o.lookup (ofString name) with
  | some (.string text) => text
  | _ => fallback

/-- What `deserialize` makes of an element. -/
def Notification.fromJson : Json → Option Notification
  | .object o =>
    if (o.lookup (ofString "id")).isNone ∨ (o.lookup (ofString "timestamp")).isNone then none
    else some
      { id := .ofInt (lib.intOr "id" o 0)
        appName := strMember o "app-name"
        summary := strMember o "summary"
        body := strMember o "body"
        icon := strMember o "icon"
        timestamp := .ofInt (lib.intOr "timestamp" o 0)
        appKey := strMember o "app-key"
        desktopEntry := strMember o "desktop-entry"
        silenced := lib.boolOr "silenced" o false
        timeSensitive := lib.boolOr "time-sensitive" o false
        restored := true
        lockScreen := strMember o "lock-screen" (ofString "hide-content")
        grouping := strMember o "grouping" (ofString "app") }
  | _ => none

/-- `deserialize`, of what the parser makes of the file: nothing when it is no JSON text. -/
def deserialize (root : Option Json) : List Notification :=
  match root with
  | some (.object obj) =>
    match obj.lookup (ofString "notifications") with
    | some node => (lib.getElements node).filterMap (Notification.fromJson lib)
    | none => []
  | _ => []

/-- `read_next_id` -/
def readNextId (root : Option Json) : UInt32 :=
  match root with
  | some (.object obj) => .ofInt (lib.intOr "next-id" obj 0)
  | _ => 0

/-! ### The manager -/

/-- The manager. `stored` lists the identifiers of the notifications that were ever stored, the one
that was stored last in front. -/
structure NotificationManager where
  nextId : UInt32 := 1
  history : List Notification := []
  stored : List UInt32 := []

/-- A notification of a client, with what hints, rules and settings make of it. -/
structure Request where
  appName : BusString
  summary : BusString
  body : BusString
  icon : BusString
  appKey : BusString
  desktopEntry : BusString
  grouping : BusString
  decision : NotificationDecision

/-- The identifiers of notifications. -/
def ids (history : List Notification) : List UInt32 := history.map (·.id)

namespace NotificationManager

variable (m : NotificationManager)

/-- The loop of `restore_history` over what was loaded. -/
def restoreLoop : List Notification → NotificationManager → NotificationManager
  | [], m => m
  | n :: loaded, m =>
    restoreLoop loaded
      { m with
        history := m.history ++ [n]
        nextId := if n.id ≥ m.nextId then n.id + 1 else m.nextId }

/-- `restore_history` -/
def restoreHistory (ns : Option AppNotificationSettings) (now : Int64) (file : Option Json) :
    NotificationManager :=
  let next := readNextId lib file
  let m := { m with nextId := if m.nextId > next then m.nextId else next }
  if retentionDays ns ≤ 0 then m
  else restoreLoop (prune (deserialize lib file) (retentionDays ns) now (historyLimit ns)) m

/-- `save_now`: the text that is written. -/
def saveNow (ns : Option AppNotificationSettings) : Json :=
  serialize (if retentionDays ns > 0 then m.history else []) m.nextId

/-- `prune_history` -/
def pruneHistory (ns : Option AppNotificationSettings) (now : Int64) : NotificationManager :=
  let days := retentionDays ns
  let kept := prune m.history (if days > 0 then days else 0) now (historyLimit ns)
  if kept.length = m.history.length then m else { m with history := kept }

/-- `clear_history` -/
def clearHistory : NotificationManager := { m with history := [] }

/-- `remove_from_history` -/
def removeFromHistory (id : UInt32) : NotificationManager :=
  { m with history := m.history.eraseP (·.id = id) }

/-- `close_notification` -/
def closeNotification (id : UInt32) : NotificationManager := m.removeFromHistory id

/-- The loop of `notify` that removes the last notification while there are too many. -/
def trimLoop (limit : ℤ) : ℕ → List Notification → List Notification
  | 0, history => history
  | fuel + 1, history =>
    if history.length > limit then trimLoop limit fuel history.dropLast else history

/-- The entry of a notification. -/
def Request.entry (r : Request) (id : UInt32) (now : Int64) : Notification where
  id
  appName := r.appName
  summary := r.summary
  body := r.body
  icon := r.icon
  timestamp := now
  appKey := r.appKey
  desktopEntry := r.desktopEntry
  silenced := r.decision.silenced
  timeSensitive := r.decision.timeSensitive
  lockScreen := r.decision.lockScreen
  grouping := r.grouping

/-- The identifier of a notification, which is a new one unless the client names one. -/
def takeId (replacesId : UInt32) : UInt32 × NotificationManager :=
  if replacesId = 0 then (m.nextId, { m with nextId := m.nextId + 1 }) else (replacesId, m)

/-- `notify`, with the identifier that it returns. -/
def notify (r : Request) (replacesId : UInt32) (ns : Option AppNotificationSettings) (now : Int64) :
    UInt32 × NotificationManager :=
  let id := (m.takeId replacesId).1
  let m := (m.takeId replacesId).2
  if !r.decision.store && !r.decision.banner then (id, m)
  else
    let history := m.history.eraseP (·.id = id)
    if r.decision.store then
      let history := Request.entry r id now :: history
      (id, { m with
        history := trimLoop (historyLimit ns) history.length history
        stored := id :: m.stored.erase id })
    else (id, { m with history })

end NotificationManager

/-! ### Calls -/

inductive Call where
  | notify (r : Request) (replacesId : UInt32) (ns : Option AppNotificationSettings) (now : Int64)
  | removeFromHistory (id : UInt32)
  | closeNotification (id : UInt32)
  | clearHistory
  | pruneHistory (ns : Option AppNotificationSettings) (now : Int64)
  | restart (ns : Option AppNotificationSettings) (now : Int64)

/-- One call. A restart saves the history, and a new manager reads what the parser makes of the
file. -/
def NotificationManager.step (m : NotificationManager) : Call → NotificationManager
  | .notify r replacesId ns now => (m.notify r replacesId ns now).2
  | .removeFromHistory id => m.removeFromHistory id
  | .closeNotification id => m.closeNotification id
  | .clearHistory => m.clearHistory
  | .pruneHistory ns now => m.pruneHistory ns now
  | .restart ns now =>
    { stored := m.stored : NotificationManager }.restoreHistory lib ns now
      (lib.reparse (m.saveNow ns))

end Notifications

end SingularityShell
