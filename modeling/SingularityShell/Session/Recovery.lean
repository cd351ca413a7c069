import SingularityShell.Lib.Json
import SingularityShell.Lib.Machine
import SingularityShell.Lib.Queues
import SingularityShell.Lib.Transition

/-!
# The windows of the last session

When a session ends, its windows are stored in a file with the places where they are. In the next
one, their applications are started again, and each window that opens is put where a window of its
application was.

## Main definitions

* `SessionRecovery.capture`, `SessionRecovery.load` — the file
* `SessionRecovery.State`, `SessionRecovery.step` — the windows that open

## Main results

* `SessionRecovery.load_capture` — what is stored of a session is read
* `SessionRecovery.restored` — the windows of an application take the places in order
-/

namespace SingularityShell

namespace SessionRecovery

open Ascii Machine Utf8

/-! ### The file -/

/-- What the compositor says of a window. -/
structure Geometry where
  x : Int32 := 0
  y : Int32 := 0
  w : Int32 := 0
  h : Int32 := 0
  maximized : Int32 := 0
  fullscreen : Int32 := 0
  connector : Option Text := none

/-- `Window` -/
structure Window where
  handle : ℕ
  appId : Option Text
  title : Option Text

structure AppInfo where
  displayName : Text
  /-- The icon, by its number. -/
  icon : Option ℕ

/-- `SessionEntry` -/
structure SessionEntry where
  appId : Text
  name : Text
  title : Text
  iconName : Text
  gicon : Option ℕ
  x : Int32
  y : Int32
  w : Int32
  h : Int32
  maximized : Bool
  fullscreen : Bool
  monitor : Text
  selected : Bool := true
  deriving DecidableEq

/-- What is asked of the rest of the shell: `get_app_info`, when it is a `DesktopAppInfo`, and
`wayland_get_window_geometry`. -/
structure Desktop where
  appInfo : Text → Option AppInfo
  geometry : ℕ → Option Geometry

/-- The element of a window. -/
def entryToJson (appId : Text) (info : AppInfo) (title : Option Text) (g : Geometry) : Json :=
  .object [
    (ofString "app_id", .string appId),
    (ofString "name", .string info.displayName),
    (ofString "title", .string (title.getD [])),
    (ofString "x", .int g.x.toInt),
    (ofString "y", .int g.y.toInt),
    (ofString "w", .int g.w.toInt),
    (ofString "h", .int g.h.toInt),
    (ofString "maximized", .bool (g.maximized ≠ 0)),
    (ofString "fullscreen", .bool (g.fullscreen ≠ 0)),
    (ofString "monitor", .string (g.connector.getD []))]

/-- The application of a window that is stored. -/
def stored (d : Desktop) (win : Window) : Option (Text × AppInfo) :=
  match win.appId with
  | none => none
  | some appId =>
    if appId = [] then none
    else
      match d.appInfo appId with
      | none => none
      | some info => if ofString "dev.sinty.desktop" <+: appId then none else some (appId, info)

/-- The place of a window that is stored. -/
def place (d : Desktop) (win : Window) : Geometry :=
  (d.geometry win.handle).getD { connector := some [] }

/-- `capture`: what is written. -/
def capture (d : Desktop) (time : Text) (windows : List Window) : Json :=
  .object [
    (ofString "captured_at", .string time),
    (ofString "entries", .array (windows.filterMap fun win =>
      (stored d win).map fun (appId, info) => entryToJson appId info win.title (place d win)))]

variable (lib : Json.Library)

/-- An element of the file. -/
def entryFromJson (d : Desktop) : Json → Option SessionEntry
  | .object e =>
    let appId := lib.stringWithDefault "app_id" e []
    if appId = [] then none
    else
      some {
        appId
        name := lib.stringWithDefault "name" e appId
        title := lib.stringWithDefault "title" e []
        iconName := match d.appInfo appId with
          | some _ => appId
          | none => ofString "application-x-executable"
        gicon := (d.appInfo appId).bind (·.icon)
        x := .ofInt (lib.intWithDefault "x" e 0)
        y := .ofInt (lib.intWithDefault "y" e 0)
        w := .ofInt (lib.intWithDefault "w" e 0)
        h := .ofInt (lib.intWithDefault "h" e 0)
        maximized := lib.boolWithDefault "maximized" e false
        fullscreen := lib.boolWithDefault "fullscreen" e false
        monitor := lib.stringWithDefault "monitor" e [] }
  | _ => none

/-- `load`: the entries of a file, if there is one that can be read. -/
def load (d : Desktop) : Option Json → List SessionEntry
  | some (.object members) =>
    match members.lookup (ofString "entries") with
    | some node => (lib.getElements node).filterMap (entryFromJson lib d)
    | none => []
  | _ => []

/-! ### Windows that open -/

structure State where
  /-- Whether there is a file. -/
  file : Bool := true
  /-- `_pending`, which may be null. -/
  pending : Option (List (Text × List SessionEntry)) := none
  /-- The handlers that are connected, in order, and the number of all that ever were. -/
  handlers : List ℕ := []
  connected : ℕ := 0
  openedHandler : ℕ := 0
  /-- The timeouts that call `stop_listening`, in order, and the number of all that ever were. -/
  stopTimers : List ℕ := []
  timeouts : ℕ := 0
  stopTimer : ℕ := 0
  /-- The timeouts that place a window, in order. -/
  timers : List (ℕ × SessionEntry) := []
  /-- The calls of `wayland_set_geometry`. -/
  geometries : List (ℕ × Int32 × Int32 × Int32 × Int32) := []
  launched : List Text := []

/-- `stop_listening` -/
def stopListening (s : State) : State :=
  { s with
    handlers := s.handlers.filter (· ≠ s.openedHandler)
    openedHandler := 0
    stopTimers := s.stopTimers.filter (· ≠ s.stopTimer)
    stopTimer := 0
    pending := none }

/-- The body of the loop of `restore`. -/
def restoreEntry (d : Desktop) (s : State) (e : SessionEntry) : State :=
  if e.selected then
    { s with
      pending := s.pending.map (Queues.enqueue e.appId e)
      launched := if (d.appInfo e.appId).isSome then s.launched ++ [e.appId] else s.launched }
  else s

/-- `restore` -/
def restore (d : Desktop) (entries : List SessionEntry) (s : State) : State :=
  let s := entries.foldl (restoreEntry d) { s with pending := some [] }
  if s.pending = some [] then { s with file := false }
  else
    { s with
      handlers := s.handlers ++ [s.connected + 1]
      connected := s.connected + 1
      openedHandler := s.connected + 1
      stopTimers := s.stopTimers ++ [s.timeouts + 1]
      timeouts := s.timeouts + 1
      stopTimer := s.timeouts + 1
      file := false }

/-- `on_app_opened` -/
def onAppOpened (handle : ℕ) (appId : Text) (s : State) : State :=
  match s.pending with
  | none => s
  | some table =>
    match Queues.dequeue appId table with
    | none => s
    | some (e, table) =>
      let s := { s with pending := some table, timers := s.timers ++ [(handle, e)] }
      if table = [] then stopListening s else s

/-- The call that places a window. -/
def call (placement : ℕ × SessionEntry) : Option (ℕ × Int32 × Int32 × Int32 × Int32) :=
  let e := placement.2
  if e.w > 0 ∧ e.h > 0 then some (placement.1, e.x, e.y, e.w, e.h) else none

inductive Event where
  /-- The signal `app_opened`. -/
  | opened (handle : ℕ) (appId : Text)
  /-- The first timeout that calls `stop_listening`. -/
  | stop
  /-- The first timeout that places a window. -/
  | place

/-- A signal calls the handlers that are connected, and are not disconnected meanwhile. -/
def step (s : State) : Event → State
  | .opened handle appId =>
    s.handlers.foldl
      (fun s handler => if handler ∈ s.handlers then onAppOpened handle appId s else s) s
  | .stop =>
    match s.stopTimers with
    | [] => s
    | timer :: timers =>
      let s := stopListening { s with stopTimers := timer :: timers }
      { s with stopTimers := s.stopTimers.filter (· ≠ timer) }
  | .place =>
    match s.timers with
    | [] => s
    | placement :: timers =>
      { s with timers, geometries := s.geometries ++ (call placement).toList }

/-! ### What is stored and read -/

/-- The entry that is read for a window. -/
def entryOf (d : Desktop) (appId : Text) (info : AppInfo) (title : Option Text) (g : Geometry) :
    SessionEntry where
  appId := appId
  name := info.displayName
  title := title.getD []
  iconName := match d.appInfo appId with
    | some _ => appId
    | none => ofString "application-x-executable"
  gicon := (d.appInfo appId).bind (·.icon)
  x := g.x
  y := g.y
  w := g.w
  h := g.h
  maximized := g.maximized ≠ 0
  fullscreen := g.fullscreen ≠ 0
  monitor := g.connector.getD []

/-- What is stored of a window are strings. -/
structure Storable (d : Desktop) (win : Window) : Prop where
  appId : ∀ appId, win.appId = some appId → IsString appId
  displayName : ∀ appId info, win.appId = some appId → d.appInfo appId = some info →
    IsString info.displayName
  title : IsString (win.title.getD [])
  connector : IsString ((place d win).connector.getD [])

theorem stored_eq_some {d : Desktop} {win : Window} {appId : Text} {info : AppInfo}
    (h : stored d win = some (appId, info)) :
    win.appId = some appId ∧ appId ≠ [] ∧ d.appInfo appId = some info := by
  rw [stored] at h
  split at h
  · cases h
  · next appId' happ =>
    split_ifs at h with hnil hours
    · split at h <;> cases h
    · split at h
      · cases h
      · next info' hinfo =>
        obtain ⟨rfl, rfl⟩ := Prod.mk.inj (Option.some.inj h)
        exact ⟨happ, hnil, hinfo⟩

variable {lib}

/-- An element is read as it was stored. -/
theorem entryFromJson_entryToJson (d : Desktop) {appId : Text} (hne : appId ≠ []) (info : AppInfo)
    (title : Option Text) (g : Geometry) :
    entryFromJson lib d (entryToJson appId info title g) = some (entryOf d appId info title g) := by
  simp (disch := decide) only [entryToJson, entryFromJson, Json.Library.intWithDefault,
    Json.Library.stringWithDefault, Json.Library.boolWithDefault, Json.valueMember,
    Option.map_some, Option.getD_some, Json.lookup_cons_of_ne, List.lookup_cons_self,
    lib.getInt_int, lib.getString_string, lib.getBool_bool, Int32.ofInt_toInt]
  rw [if_neg hne, entryOf]

theorem kept_int32 (n : Int32) : Json.Kept (.int n.toInt) := by
  have hlow := n.le_toInt
  have hhigh := n.toInt_lt
  exact .int ⟨by omega, by omega⟩

theorem kept_entryToJson {appId : Text} {info : AppInfo} {title : Option Text} {g : Geometry}
    (happ : IsString appId) (hname : IsString info.displayName) (htitle : IsString (title.getD []))
    (hconnector : IsString (g.connector.getD [])) :
    Json.Kept (entryToJson appId info title g) := by
  have hnames : ∀ name ∈ ["app_id", "name", "title", "x", "y", "w", "h", "maximized", "fullscreen",
      "monitor"], IsString (ofString name) := by decide +kernel
  refine Json.kept_object ?_ ?_
  · simpa using hnames
  · simpa using ⟨.string happ, .string hname, .string htitle, kept_int32 g.x, kept_int32 g.y,
      kept_int32 g.w, kept_int32 g.h, .bool trivial, .bool trivial, .string hconnector⟩

theorem kept_capture {d : Desktop} {time : Text} {windows : List Window} (htime : IsString time)
    (h : ∀ win ∈ windows, Storable d win) : Json.Kept (capture d time windows) := by
  have hnames : ∀ name ∈ ["captured_at", "entries"], IsString (ofString name) := by decide +kernel
  have hentries : Json.Kept (.array (windows.filterMap fun win =>
      (stored d win).map fun (appId, info) => entryToJson appId info win.title (place d win))) := by
    refine .array fun node hnode => ?_
    obtain ⟨win, hwin, hmap⟩ := List.mem_filterMap.1 hnode
    obtain ⟨⟨appId, info⟩, hstored, rfl⟩ := Option.map_eq_some_iff.1 hmap
    obtain ⟨happ, -, hinfo⟩ := stored_eq_some hstored
    have hwin := h win hwin
    exact kept_entryToJson (hwin.appId appId happ) (hwin.displayName appId info happ hinfo)
      hwin.title hwin.connector
  refine Json.kept_object ?_ ?_
  · simpa using hnames
  · simpa using ⟨.string htime, hentries⟩

/-- **What is stored of a session is read.** The entries are those of the windows whose applications
are known, in order, each with its place. Which icons they have depends on the applications that are
known when the file is read. -/
theorem load_capture (d d' : Desktop) {time : Text} {windows : List Window} (htime : IsString time)
    (h : ∀ win ∈ windows, Storable d win) :
    load lib d' (lib.reparse (capture d time windows)) = windows.filterMap fun win =>
      (stored d win).map fun (appId, info) => entryOf d' appId info win.title (place d win) := by
  have hlookup : ∀ node node' : Json, [(ofString "captured_at", node),
      (ofString "entries", node')].lookup (ofString "entries") = some node' := by
    intro node node'
    rw [Json.lookup_cons_of_ne (by decide), List.lookup_cons_self]
  rw [lib.reparse_of_kept _ (kept_capture htime h), capture, load, hlookup]
  dsimp only
  rw [lib.getElements_array, List.filterMap_filterMap]
  refine List.filterMap_congr fun win _ => ?_
  rcases hstored : stored d win with _ | ⟨appId, info⟩
  · rfl
  · exact entryFromJson_entryToJson d' (stored_eq_some hstored).2.1 info win.title (place d win)

/-- A window of the session, which is stored, and one of the shell itself. -/
def exampleDesktop : Desktop where
  appInfo appId := if appId = ofString "files" then some ⟨ofString "Files", some 1⟩ else none
  geometry _ := some { x := -20, y := 40, w := 800, h := 600, connector := some (ofString "DP-1") }

theorem load_capture_files :
    load Json.plainLibrary exampleDesktop (Json.plainLibrary.reparse (capture exampleDesktop
      (ofString "2026-01-01") [⟨7, some (ofString "files"), none⟩, ⟨8, none, none⟩])) =
    [⟨7, some (ofString "files"), none⟩, ⟨8, none, none⟩].filterMap fun win =>
      (stored exampleDesktop win).map fun (appId, info) =>
        entryOf exampleDesktop appId info win.title (place exampleDesktop win) := by
  refine load_capture exampleDesktop exampleDesktop (by decide +kernel) fun win hwin => ?_
  have happ : ∀ appId, win.appId = some appId → appId = ofString "files" := by
    simp only [List.mem_cons, List.not_mem_nil, or_false] at hwin
    rcases hwin with rfl | rfl
    · exact fun appId h => (Option.some.inj h).symm
    · exact nofun
  have htitle : win.title = none := by
    simp only [List.mem_cons, List.not_mem_nil, or_false] at hwin
    rcases hwin with rfl | rfl <;> rfl
  refine ⟨fun appId h => ?_, fun appId info h hinfo => ?_, ?_, ?_⟩
  · rw [happ appId h]
    decide +kernel
  · rw [happ appId h] at hinfo
    obtain rfl : AppInfo.mk (ofString "Files") (some 1) = info := Option.some.inj hinfo
    decide +kernel
  · rw [htitle]
    exact isString_nil
  · show IsString (ofString "DP-1")
    decide +kernel

/-! ### What a run places -/

/-- The windows that open before `stop_listening` is called for the time that has passed. -/
def openings (es : List Event) : List (ℕ × Text) :=
  (es.takeWhile fun | .stop => false | _ => true).filterMap fun
    | .opened handle appId => some (handle, appId)
    | _ => none

/-- No window that opens is waited for. -/
def Sleeping (s : State) : Prop := s.handlers = [] ∧ s.stopTimers = []

/-- There are entries left for the windows that open. -/
structure Listening (s : State) (queue : List SessionEntry) : Prop where
  handlers : s.handlers = [s.openedHandler]
  stopTimers : s.stopTimers = [s.stopTimer]
  pending : ∃ table, s.pending = some table ∧
    Queues.Represents SessionEntry.appId table queue
  left : queue ≠ []

/-- The calls that were made, and those that are about to be made. -/
def calls (s : State) : List (ℕ × Int32 × Int32 × Int32 × Int32) :=
  s.geometries ++ s.timers.filterMap call

theorem sleeping_stopListening {s : State} (h : s.handlers = [s.openedHandler])
    (h' : s.stopTimers = [s.stopTimer]) : Sleeping (stopListening s) := by
  constructor
  · rw [stopListening, h, List.filter_eq_nil_iff]
    simp
  · rw [stopListening, h', List.filter_eq_nil_iff]
    simp

theorem filterMap_call_cons (placement : ℕ × SessionEntry) (timers : List (ℕ × SessionEntry)) :
    (placement :: timers).filterMap call =
      (call placement).toList ++ timers.filterMap call := by
  rw [List.filterMap_cons]
  cases call placement <;> rfl

theorem calls_place (s : State) : calls (step s .place) = calls s ∧
    (step s .place).handlers = s.handlers ∧ (step s .place).stopTimers = s.stopTimers := by
  rw [step]
  split
  · exact ⟨rfl, rfl, rfl⟩
  · next placement timers htimers =>
    refine ⟨?_, rfl, rfl⟩
    rw [calls, calls, htimers, filterMap_call_cons, List.append_assoc]

/-- Without a handler, nothing more is placed. -/
theorem Sleeping.step {s : State} (h : Sleeping s) (e : Event) :
    Sleeping (step s e) ∧ calls (SessionRecovery.step s e) = calls s := by
  cases e with
  | opened handle appId =>
    rw [SessionRecovery.step, h.1]
    exact ⟨h, rfl⟩
  | stop =>
    rw [SessionRecovery.step, h.2]
    exact ⟨h, rfl⟩
  | place =>
    obtain ⟨hcalls, hhandlers, htimers⟩ := calls_place s
    exact ⟨⟨hhandlers.trans h.1, htimers.trans h.2⟩, hcalls⟩

theorem Sleeping.run {s : State} (h : Sleeping s) (es : List Event) :
    calls (Transition.run SessionRecovery.step s es) = calls s := by
  induction es generalizing s with
  | nil => rfl
  | cons e es ih => exact (ih (h.step e).1).trans (h.step e).2

/-- **The step lemma of a window that opens.** It takes the first entry of its application. -/
theorem Listening.opened {s : State} {queue : List SessionEntry} (h : Listening s queue)
    (handle : ℕ) (appId : Text) :
    match queue.find? fun e => e.appId = appId with
    | none => Listening (step s (.opened handle appId)) queue ∧
        calls (step s (.opened handle appId)) = calls s
    | some e =>
      let left := queue.eraseP fun e => e.appId = appId
      (if left = [] then Sleeping (step s (.opened handle appId))
        else Listening (step s (.opened handle appId)) left) ∧
      calls (step s (.opened handle appId)) = calls s ++ (call (handle, e)).toList := by
  obtain ⟨table, hpending, htable⟩ := h.pending
  have hstep : step s (.opened handle appId) = onAppOpened handle appId s := by
    rw [step, h.handlers, List.foldl_cons, List.foldl_nil, h.handlers,
      if_pos (List.mem_singleton.2 rfl)]
  rw [hstep, onAppOpened, hpending]
  dsimp only
  rcases hdequeue : Queues.dequeue appId table with _ | ⟨e, table'⟩
  · rw [htable.dequeue_eq_none_iff.1 hdequeue]
    exact ⟨h, rfl⟩
  · obtain ⟨hfind, hleft⟩ := htable.dequeue hdequeue
    rw [hfind]
    dsimp only
    have hcalls : calls { s with pending := some table', timers := s.timers ++ [(handle, e)] } =
        calls s ++ (call (handle, e)).toList := by
      rw [calls, calls, List.filterMap_append, filterMap_call_cons, List.append_assoc]
      exact congrArg (s.geometries ++ ·) (congrArg (_ ++ ·) (List.append_nil _))
    by_cases hnil : table' = []
    · rw [if_pos hnil, if_pos (hleft.eq_nil_iff.1 hnil)]
      exact ⟨sleeping_stopListening h.handlers h.stopTimers, hcalls⟩
    · rw [if_neg hnil, if_neg fun hq => hnil (hleft.eq_nil_iff.2 hq)]
      exact ⟨⟨h.handlers, h.stopTimers, ⟨table', rfl, hleft⟩,
        fun hq => hnil (hleft.eq_nil_iff.2 hq)⟩, hcalls⟩

theorem Listening.stop {s : State} {queue : List SessionEntry} (h : Listening s queue) :
    Sleeping (step s .stop) ∧ calls (step s .stop) = calls s := by
  rw [step, h.stopTimers]
  dsimp only
  have hsleeping : Sleeping (stopListening { s with stopTimers := [s.stopTimer] }) :=
    sleeping_stopListening h.handlers rfl
  exact ⟨⟨hsleeping.1, by rw [hsleeping.2]; rfl⟩, rfl⟩

theorem Listening.place {s : State} {queue : List SessionEntry} (h : Listening s queue) :
    Listening (step s .place) queue ∧ calls (step s .place) = calls s := by
  obtain ⟨hcalls, -, -⟩ := calls_place s
  refine ⟨?_, hcalls⟩
  rw [step]
  split
  · exact h
  · exact ⟨h.handlers, h.stopTimers, h.pending, h.left⟩

/-- **The run lemma.** Each window takes the first entry of its application that is left. -/
theorem Listening.run {s : State} {queue : List SessionEntry} (h : Listening s queue)
    (es : List Event) :
    calls (Transition.run step s es) = calls s ++
      (Queues.assign SessionEntry.appId queue (openings es)).filterMap call := by
  induction es generalizing s queue with
  | nil => exact (List.append_nil _).symm
  | cons e es ih =>
    rw [Transition.run_cons]
    cases e with
    | place => exact (ih h.place.1).trans (congrArg (· ++ _) h.place.2)
    | stop =>
      rw [h.stop.1.run, h.stop.2]
      exact (List.append_nil _).symm
    | opened handle appId =>
      have hopened := h.opened handle appId
      have hopenings : openings (.opened handle appId :: es) = (handle, appId) :: openings es := rfl
      rw [hopenings, Queues.assign]
      split at hopened
      · next hnone =>
        rw [hnone, ih hopened.1, hopened.2]
      · next e hsome =>
        rw [hsome]
        dsimp only at hopened ⊢
        obtain ⟨hleft, hcalls⟩ := hopened
        split_ifs at hleft with hnil
        · rw [hleft.run, hcalls, hnil, Queues.assign_nil_left, filterMap_call_cons]
          exact congrArg (calls s ++ ·) (List.append_nil _).symm
        · rw [ih hleft, hcalls, filterMap_call_cons, List.append_assoc]

/-- What the loop of `restore` makes of the queues. -/
theorem foldl_restoreEntry (d : Desktop) (entries : List SessionEntry) {s : State}
    {table : List (Text × List SessionEntry)} {queue : List SessionEntry}
    (hpending : s.pending = some table) (h : Queues.Represents SessionEntry.appId table queue) :
    ∃ table' launched,
      entries.foldl (restoreEntry d) s = { s with pending := some table', launched } ∧
      Queues.Represents SessionEntry.appId table' (queue ++ entries.filter (·.selected)) := by
  induction entries generalizing s table queue with
  | nil =>
    refine ⟨table, s.launched, ?_, ?_⟩
    · rw [← hpending]
      rfl
    · rw [List.filter_nil, List.append_nil]
      exact h
  | cons e entries ih =>
    rw [List.foldl_cons, restoreEntry]
    by_cases hselected : e.selected = true
    · rw [if_pos hselected, List.filter_cons_of_pos hselected, List.append_cons queue]
      obtain ⟨table', launched, hfold, htable⟩ := ih
        (s := { s with
          pending := s.pending.map (Queues.enqueue e.appId e)
          launched := if (d.appInfo e.appId).isSome then s.launched ++ [e.appId] else s.launched })
        (congrArg (Option.map (Queues.enqueue e.appId e)) hpending) (h.enqueue e)
      exact ⟨table', launched, hfold, htable⟩
    · rw [if_neg hselected, List.filter_cons_of_neg hselected]
      exact ih hpending h

/-- What `restore` leaves to the windows that open. -/
theorem restore_spec (d : Desktop) (entries : List SessionEntry) {s : State} (h : Sleeping s) :
    (if (entries.filter (·.selected)) = [] then Sleeping (restore d entries s)
      else Listening (restore d entries s) (entries.filter (·.selected))) ∧
    calls (restore d entries s) = calls s := by
  obtain ⟨table, launched, hfold, htable⟩ := foldl_restoreEntry d entries
    (s := { s with pending := some [] }) rfl Queues.represents_nil
  rw [List.nil_append] at htable
  rw [restore, hfold]
  dsimp only
  by_cases hnil : entries.filter (·.selected) = []
  · rw [if_pos hnil, if_pos (congrArg some (htable.eq_nil_iff.2 hnil))]
    exact ⟨h, rfl⟩
  · have hne : ¬some table = some [] := fun heq =>
      hnil (htable.eq_nil_iff.1 (Option.some.inj heq))
    rw [if_neg hnil, if_neg hne]
    refine ⟨⟨?_, ?_, ⟨table, rfl, htable⟩, hnil⟩, rfl⟩
    · exact congrArg (· ++ [s.connected + 1]) h.1
    · exact congrArg (· ++ [s.timeouts + 1]) h.2

/-- **The windows of an application take its places in order.** After `restore`, the windows that
open until the time has passed take the chosen entries of their applications, the first window the
first entry, and each of them one at most. Nothing else is placed. -/
theorem restored (d : Desktop) (entries : List SessionEntry) {s : State} (h : Sleeping s)
    (es : List Event) :
    ∃ taken : List (ℕ × SessionEntry),
      calls (Transition.run step (restore d entries s) es) = calls s ++ taken.filterMap call ∧
      (taken.map Prod.fst).Sublist ((openings es).map Prod.fst) ∧
      ∀ appId, (taken.filter fun p => p.2.appId = appId) =
        (((openings es).filter fun o => o.2 = appId).map Prod.fst).zip
          ((entries.filter (·.selected)).filter fun e => e.appId = appId) := by
  obtain ⟨hrestore, hcalls⟩ := restore_spec d entries h
  refine ⟨Queues.assign SessionEntry.appId (entries.filter (·.selected)) (openings es), ?_,
    Queues.assign_sublist _ _, fun appId => Queues.assign_filter SessionEntry.appId appId _ _⟩
  split_ifs at hrestore with hnil
  · rw [hrestore.run, hcalls, hnil, Queues.assign_nil_left]
    exact (List.append_nil _).symm
  · rw [hrestore.run, hcalls]

/-- Two windows of an application, of which one was not chosen, and one that opens. -/
def chosen : List SessionEntry :=
  let info : AppInfo := ⟨ofString "Files", some 1⟩
  let entry := entryOf exampleDesktop (ofString "files") info none { x := 5, w := 8, h := 6 }
  [{ entry with selected := false }, { entry with x := 40 }]

theorem restored_chosen :
    let s := Transition.run step (restore exampleDesktop chosen {})
      [.opened 7 (ofString "files"), .place, .opened 8 (ofString "files")]
    s.geometries = [(7, 40, 0, 8, 6)] ∧ ∃ taken : List (ℕ × SessionEntry),
      calls s = taken.filterMap call ∧
      (taken.map Prod.fst).Sublist [7, 8] ∧
      ∀ appId, (taken.filter fun p => p.2.appId = appId) =
        (([(7, ofString "files"), (8, ofString "files")].filter fun o => o.2 = appId).map
          Prod.fst).zip ((chosen.filter (·.selected)).filter fun e => e.appId = appId) :=
  ⟨by decide +kernel, restored exampleDesktop chosen (s := {}) ⟨rfl, rfl⟩
    [.opened 7 (ofString "files"), .place, .opened 8 (ofString "files")]⟩

end SessionRecovery

end SingularityShell
