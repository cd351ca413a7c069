import SingularityShell.Lib.Lists
import SingularityShell.Lib.Transition
import SingularityShell.Stage.Grouping
import SingularityShell.Stage.Frame
import SingularityShell.Stage.Visibility
import SingularityShell.Stage.Restart
import SingularityShell.Stage.Leave
import SingularityShell.Manager.Ids
import SingularityShell.Manager.Surface
import SingularityShell.Manager.Split
import SingularityShell.Manager.Tags
import SingularityShell.Crash.Reporter
import SingularityShell.Crash.Limiter
import SingularityShell.Crash.Notes
import SingularityShell.Crash.Spool
import SingularityShell.Firewall.Store
import SingularityShell.Firewall.Ruleset
import SingularityShell.Wallpaper.Cycle
import SingularityShell.Wallpaper.History
import SingularityShell.Wallpaper.Schedule
import SingularityShell.Wallpaper.Saved
import SingularityShell.Plist.Bounds
import SingularityShell.Plist.RoundTrip
import SingularityShell.Ime.Deletion
import SingularityShell.Ime.Grab
import SingularityShell.Bar.Placement
import SingularityShell.Clipboard.Saved
import SingularityShell.Search.Session
import SingularityShell.Focus.Manager
import SingularityShell.Focus.Saved
import SingularityShell.Focus.Week
import SingularityShell.Idle.Wake
import SingularityShell.Notifications.Ids
import SingularityShell.Notifications.Image
import SingularityShell.Dictation.Speech
import SingularityShell.Dictation.Wav
import SingularityShell.Lock.Leave
import SingularityShell.Vkbd.Typing
import SingularityShell.Preview.Requests
import SingularityShell.Display.Mirror
import SingularityShell.Recorder.Protocol
import SingularityShell.Registry.Windows
import SingularityShell.Idle.Inhibitors
import SingularityShell.Clipboard.Selections
import SingularityShell.Ime.Preedit
import SingularityShell.Ime.Protocol
import SingularityShell.Ime.Service
import SingularityShell.Firewall.Atomic
import SingularityShell.Xsettings.Supervision
import SingularityShell.Ime.Sources
import SingularityShell.Wallpaper.Choice
import SingularityShell.Wallpaper.Collections
import SingularityShell.Wallpaper.Controller
import SingularityShell.Parental.ScreenTime
import SingularityShell.Pause.Model
import SingularityShell.Pause.Resume
import SingularityShell.Recorder.Crop
import SingularityShell.Recorder.Session
import SingularityShell.Recorder.Outcome
import SingularityShell.Xwl.Icon
import SingularityShell.Fan.Curve
import SingularityShell.Fan.Model
import SingularityShell.Fan.Snapshot
import SingularityShell.Calculator.Grammar
import SingularityShell.Apps.Pinned
import SingularityShell.Apps.Menu
import SingularityShell.Tiling.Group
import SingularityShell.Tiling.Sync
import SingularityShell.Snap.Layouts
import SingularityShell.Lib.Pages
import SingularityShell.Ime.Table
import SingularityShell.Wallpaper.Clock
import SingularityShell.Lib.Weighted
import SingularityShell.Wallpaper.Rotation
import SingularityShell.Lock.Keyboard
import SingularityShell.Lib.Numeral
import SingularityShell.Process.Terminator
import SingularityShell.Lib.Pattern
import SingularityShell.Ime.Component
import SingularityShell.Lib.Growing
import SingularityShell.Pause.Tree
import SingularityShell.Tiling.Rows
import SingularityShell.Lib.Bubble
import SingularityShell.Display.Snap
import SingularityShell.Crash.Coredumpctl
import SingularityShell.Lib.Throwing
import SingularityShell.Wallpaper.Ocs
import SingularityShell.Desktop.Icons
import SingularityShell.Desktop.Saved
import SingularityShell.Desktop.Kept
import SingularityShell.Screenshot.Crop
import SingularityShell.Preview.Cache
import SingularityShell.Lib.Queues
import SingularityShell.Session.Recovery
import SingularityShell.Lib.Linked
import SingularityShell.Idle.Notify
