import Mathlib.Data.Finset.Erase
import Mathlib.Data.Finset.Insert
import Mathlib.Data.Int.Notation
import SingularityShell.Lib.Ascii

/-!
# The idle manager

The manager asks the compositor for a notification when the user has been idle for some time, and
dims the screens, turns them off, locks the session or suspends. Inhibitors hold these actions back.

## Main definitions

* `Idle.IdleInhibitors` — who holds idle actions back
* `Idle.Watch` — a notification, as the compositor keeps it
* `Idle.IdleManager`, `Idle.IdleManager.step` — the manager, and what can happen to it
-/

namespace SingularityShell

namespace Idle

open Ascii

/-! ### Inhibitors -/

structure IdleInhibitor where
  cookie : UInt32
  flags : UInt32
  sender : Text
  deriving DecidableEq

structure IdleInhibitors where
  list : List IdleInhibitor := []
  nextCookie : UInt32 := 1
  windowInhibit : Bool := false

/-- `SUSPEND` -/
def suspendFlag : UInt32 := 4

/-- `IDLE` -/
def idleFlag : UInt32 := 8

namespace IdleInhibitors

variable (r : IdleInhibitors)

def inhibits (flags : UInt32) (includeWindows : Bool) : Bool :=
  (includeWindows && flags &&& idleFlag ≠ 0 && r.windowInhibit) ||
    r.list.any fun i => i.flags &&& flags ≠ 0

/-- `add`, without its signal. -/
def add (sender : Text) (flags : UInt32) : IdleInhibitors :=
  { r with
    list := r.list ++ [⟨r.nextCookie, flags, sender⟩]
    nextCookie := r.nextCookie + 1 }

/-- `remove`, without its signal: nothing when no inhibitor of the sender has the cookie. -/
def remove (cookie : UInt32) (sender : Text) : Option IdleInhibitors :=
  match r.list.find? (·.cookie = cookie) with
  | some i => if i.sender ≠ sender then none else some { r with list := r.list.erase i }
  | none => none

/-- `release_sender`, without its signal: nothing when the sender has no inhibitor. -/
def releaseSender (sender : Text) : Option IdleInhibitors :=
  if r.list.any (·.sender = sender) then some { r with list := r.list.filter (·.sender ≠ sender) }
  else none

end IdleInhibitors

/-! ### Watches -/

inductive WatchId where
  | dim
  | blank
  | lock
  | suspend
  | probe
  deriving DecidableEq

/-- A notification that is armed. `idle` tells that it has been sent and that there was no input
since. -/
structure Watch where
  id : WatchId
  timeout : UInt32
  inputOnly : Bool
  idle : Bool := false

/-- `IdleNotify.unwatch` -/
def unwatch (id : WatchId) (watches : List Watch) : List Watch := watches.filter (·.id ≠ id)

/-- `IdleNotify.watch` -/
def watch (id : WatchId) (timeout : UInt32) (inputOnly : Bool) (watches : List Watch) :
    List Watch :=
  { id, timeout, inputOnly } :: unwatch id watches

/-! ### Settings -/

/-- The settings, in seconds. `lock` is nothing when the lock screen has no settings. -/
structure Config where
  blankAc : ℤ
  blankBattery : ℤ
  suspendAc : ℤ
  suspendBattery : ℤ
  dimScreen : Bool
  lock : Option (Bool × ℤ)

namespace Config

variable (s : Config) (onBattery : Bool)

def blankSeconds : ℤ := if onBattery then s.blankBattery else s.blankAc

def suspendSeconds : ℤ := if onBattery then s.suspendBattery else s.suspendAc

def lockSeconds : ℤ :=
  match s.lock with
  | some (lockEnabled, idleDelay) => if lockEnabled then idleDelay else 0
  | none => 0

def dimSeconds : ℤ :=
  let blank := s.blankSeconds onBattery
  if !s.dimScreen ∨ blank ≤ 0 then 0 else max (blank - min 30 (blank / 2)) 1

end Config

/-! ### The manager -/

/-- What is taken and announced by `action_taken`. -/
inductive Action where
  | dim
  | blank
  | lock
  | suspend
  deriving DecidableEq

/-- The manager. `inputOnly` is what the compositor supports, and `power` what it was told last. -/
structure IdleManager where
  available : Bool
  inputOnly : Bool
  config : Config
  onBattery : Bool
  inhibitors : IdleInhibitors := {}
  watches : List Watch := []
  fired : Finset WatchId := ∅
  probeTarget : Option WatchId := none
  probeCheck : Bool := false
  dbusInhibited : Bool := false
  dimmed : Bool := false
  blanked : Bool := false
  power : Bool := true
  taken : List Action := []

namespace IdleManager

variable (m : IdleManager)

/-- The loop of `rearm` over the watches and their delays, with the shortest delay so far. -/
def armLoop : List (WatchId × ℤ) → List Watch → ℤ → Option WatchId →
    List Watch × ℤ × Option WatchId
  | [], watches, shortest, target => (watches, shortest, target)
  | (id, delay) :: rest, watches, shortest, target =>
    if delay ≤ 0 then armLoop rest watches shortest target
    else
      let watches := watch id (.ofNat delay.toNat * 1000) false watches
      if shortest = 0 ∨ delay < shortest then armLoop rest watches delay (some id)
      else armLoop rest watches shortest target

/-- `rearm` -/
def rearm : IdleManager :=
  if !m.available then m
  else
    let bare := [.dim, .blank, .lock, .suspend, .probe].foldl (fun ws id => unwatch id ws) m.watches
    let (watches, shortest, probeTarget) := armLoop
      [(.dim, m.config.dimSeconds m.onBattery), (.blank, m.config.blankSeconds m.onBattery),
        (.lock, m.config.lockSeconds), (.suspend, m.config.suspendSeconds m.onBattery)] bare 0 none
    { m with
      fired := ∅
      probeTarget
      watches :=
        if shortest > 0 ∧ m.inputOnly then
          watch .probe (.ofNat shortest.toNat * 1000) true watches
        else watches }

/-- `undim` -/
def undim : IdleManager := { m with dimmed := false }

/-- `dim` -/
def dim : IdleManager :=
  if m.dimmed then m else { m with dimmed := true, taken := m.taken ++ [.dim] }

/-- `blank_screens` -/
def blankScreens (on : Bool) : IdleManager :=
  if m.blanked = on then m
  else if on then { m with blanked := true, power := false, taken := m.taken ++ [.blank] }
  else { m.undim with blanked := false, power := true }

/-- `undim` and, when the screens are off, `blank_screens(false)`. -/
def brighten : IdleManager :=
  let m := m.undim
  if m.blanked then m.blankScreens false else m

/-- `on_inhibitors_changed` -/
def onInhibitorsChanged : IdleManager :=
  let now := m.inhibitors.inhibits idleFlag false
  let was := m.dbusInhibited
  let m := { m with dbusInhibited := now }
  let m := if !was && now then m.brighten else m
  if was && !now && m.fired.Nonempty then m.rearm else m

/-- `mark_window_inhibit` -/
def markWindowInhibit (on : Bool) : IdleManager :=
  if m.inhibitors.windowInhibit = on then m
  else { m with inhibitors := { m.inhibitors with windowInhibit := on } }.onInhibitorsChanged

/-- The flags of the inhibitors that hold an action back. -/
def heldBy (id : WatchId) : UInt32 := if id = .suspend then idleFlag ||| suspendFlag else idleFlag

/-- The action of a watch. -/
def act (id : WatchId) : IdleManager :=
  match id with
  | .dim => m.dim
  | .blank => m.blankScreens true
  | .lock => { m with taken := m.taken ++ [.lock] }
  | .suspend => { m with taken := m.taken ++ [.suspend] }
  | .probe => m

/-- `handle_idle` -/
def handleIdle (id : WatchId) : IdleManager :=
  if id = .probe then { m with probeCheck := true }
  else
    let m := { m with fired := insert id m.fired }.markWindowInhibit false
    if m.inhibitors.inhibits (heldBy id) true then m else m.act id

/-- The timer of `handle_idle`. -/
def probed : IdleManager :=
  let m := { m with probeCheck := false }
  match m.probeTarget with
  | some target => if target ∈ m.fired then m else m.markWindowInhibit true
  | none => m.markWindowInhibit true

/-- `handle_resume` -/
def handleResume (id : WatchId) : IdleManager :=
  let m := { m with fired := m.fired.erase id }
  let m := if id = .probe then { m with probeCheck := false }.markWindowInhibit false else m
  m.brighten

/-- `wake` -/
def wake : IdleManager := m.brighten.rearm

end IdleManager

/-! ### Events -/

inductive Event where
  | idled (id : WatchId)
  | resumed (id : WatchId)
  | probed
  | settingsChanged (config : Config)
  | batteryChanged (onBattery : Bool)
  | inhibit (sender : Text) (flags : UInt32)
  | unInhibit (cookie : UInt32) (sender : Text)
  | senderVanished (sender : Text)
  | setActive (active : Bool)
  | simulateUserActivity

namespace IdleManager

/-- The compositor has sent `idle` or `resumed` for a watch. -/
def mark (m : IdleManager) (id : WatchId) (idle : Bool) : IdleManager :=
  { m with watches := m.watches.map fun w => if w.id = id then { w with idle } else w }

/-- What becomes of the manager when the inhibitors have changed, if they have. -/
def withInhibitors (m : IdleManager) : Option IdleInhibitors → IdleManager
  | some inhibitors => { m with inhibitors }.onInhibitorsChanged
  | none => m

/-- One event. A watch is idle once until it resumes, the timer runs when it was started, and
nothing is sent for a watch that is not armed. -/
def step (m : IdleManager) : Event → IdleManager
  | .idled id =>
    if m.watches.any fun w => w.id = id && !w.idle then (m.mark id true).handleIdle id else m
  | .resumed id =>
    if m.watches.any fun w => w.id = id && w.idle then (m.mark id false).handleResume id else m
  | .probed => if m.probeCheck then m.probed else m
  | .settingsChanged config => { m with config }.rearm
  | .batteryChanged onBattery => { m with onBattery }.rearm
  | .inhibit sender flags => m.withInhibitors (some (m.inhibitors.add sender flags))
  | .unInhibit cookie sender => m.withInhibitors (m.inhibitors.remove cookie sender)
  | .senderVanished sender => m.withInhibitors (m.inhibitors.releaseSender sender)
  | .setActive active => m.blankScreens active
  | .simulateUserActivity => m.wake

/-- The manager after `start`, with what `IdleNotify.init` has returned. -/
def start (available inputOnly : Bool) (config : Config) (onBattery : Bool) : IdleManager :=
  ({ available, inputOnly, config, onBattery } : IdleManager).rearm

end IdleManager

end Idle

end SingularityShell
