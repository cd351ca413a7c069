import SingularityShell.Crash.Report
import SingularityShell.Lib.Binary64
import SingularityShell.Lib.KeyFile
import SingularityShell.Lib.Machine
import SingularityShell.Lib.Path

/-!
# What is noted in a report

A report is a key file that the handler has written. When it has been shown the reporter notes in
it that it was seen, and the backtrace that was made in the meantime, which is a block of lines in
one value.

## Main definitions

* `Crash.SavedReport`, `Crash.fromFile`, `Crash.markSeen`
* `Crash.Persists` — the report that is read again
* `Crash.Noted` — what `mark_seen` depends on

## Main results

* `Crash.markSeen_iff` — when the notes survive
-/

namespace SingularityShell

namespace Crash

open Ascii Binary64 Machine Utf8

/-! ### Reading -/

/-- `Report`, with the properties that a file has. -/
structure SavedReport extends Report where
  uid : ℤ := -1
  signalNumber : ℤ := 0
  timestamp : ℤ := 0
  commandLine : Text := []
  desktopFile : Text := []
  corePath : Text := []
  backtrace : Text := []
  backtraceTool : Text := []
  reportPath : Text := []
  seen : Bool := false
  deriving DecidableEq

/-- The functions of the library that read a value. -/
structure Parsers where
  tryInt64 : Text → Option ℤ
  tryDouble : Text → Option Double
  /-- What becomes of a double that is cast to an integer that does not hold it. -/
  undefined : ℕ → Double → ℤ
  down : Text → Text

/-- `GROUP` -/
def group : Text := ofString "Crash"

/-- `SourceKind.from_id` -/
def SourceKind.fromId (P : Parsers) (id : Text) : Option SourceKind :=
  let id := P.down (strip id)
  if id = ofString "handler" then some .handler
  else if id = ofString "coredumpctl" then some .coredumpctl
  else if id = ofString "launcher" then some .launcher
  else none

/-- `app_id_from_desktop_path` -/
def appIdFromDesktopPath (path : Text) : Text :=
  let base := Path.basename path
  if ofString ".desktop" <:+ base then base.take (base.length - 8) else base

/-- `escape_block`: every backslash is doubled, and then every line feed is replaced. -/
def escapeBlock (text : Text) : Text :=
  (text.flatMap fun b => if b = 92 then [92, 92] else [b]).flatMap fun b =>
    if b = 10 then [92, 110] else [b]

/-- `unescape_block` -/
def unescapeBlock (text : Text) : Text := Escape.unescape text

section Read

variable {K : Type*} (G : KeyFiles K) (P : Parsers) (kf : K)

/-- `read_string` -/
def readString (key : Text) : Text :=
  if G.hasKey kf group key then ((G.getString kf group key).map strip).getD [] else []

/-- `read_int` -/
def readInt (key : Text) (fallback : ℤ) : ℤ :=
  let value := readString G kf key
  match if value ≠ [] then P.tryInt64 value else none with
  | some parsed => wrap32 parsed
  | none => fallback

/-- `read_double` -/
def readDouble (key : Text) (fallback : Double) : Double :=
  let value := readString G kf key
  match if value ≠ [] then P.tryDouble value else none with
  | some parsed => parsed
  | none => fallback

def readAppId : Text :=
  let appId := readString G kf (ofString "AppId")
  let desktopFile := readString G kf (ofString "DesktopFile")
  if appId = [] ∧ desktopFile ≠ [] then appIdFromDesktopPath desktopFile else appId

/-- The core is named relative to the report. -/
def readCore (path : Text) : Text :=
  let core := readString G kf (ofString "Core")
  if core ≠ [] ∧ !Path.isAbsolute core ∧ path ≠ [] then
    Path.buildFilename (Path.dirname path) core
  else core

/-- The report that `from_keyfile_data` makes of a key file. -/
def readReport (path : Text) : SavedReport where
  reportPath := path
  source := (SourceKind.fromId P (readString G kf (ofString "Source"))).getD .handler
  pid := readInt G P kf (ofString "Pid") 0
  uid := readInt G P kf (ofString "Uid") (-1)
  signalNumber := readInt G P kf (ofString "Signal") 0
  timestamp := (readDouble G P kf (ofString "Time") (.num 0)).toInt P.undefined 64
  executable := readString G kf (ofString "Executable")
  commandLine := readString G kf (ofString "CommandLine")
  desktopFile := readString G kf (ofString "DesktopFile")
  appId := readAppId G kf
  corePath := readCore G kf path
  backtrace := unescapeBlock (readString G kf (ofString "Backtrace"))
  backtraceTool := readString G kf (ofString "BacktraceTool")
  seen := readString G kf (ofString "Seen") = ofString "true"

end Read

/-- The files, by their names. -/
structure Disk where
  contents : Text → Option Text
  /-- Whether a file can be written. -/
  writable : Text → Bool
  no_name : contents [] = none

/-- A file is written. -/
def Disk.write (disk : Disk) (path text : Text) (h : path ≠ []) : Disk where
  contents := Function.update disk.contents path (some text)
  writable := disk.writable
  no_name := by rw [Function.update_of_ne h.symm, disk.no_name]

section Files

variable {K : Type*} (G : KeyFiles K) (P : Parsers)

/-- `from_keyfile_data` -/
def fromKeyfileData (data path : Text) : Option SavedReport :=
  match G.load false data with
  | none => none
  | some kf =>
    if !G.hasGroup kf group then none
    else
      let report := readReport G P kf path
      if report.pid ≤ 0 ∨ report.executable = [] then none else some report

/-- `from_file` -/
def fromFile (disk : Disk) (path : Text) : Option SavedReport :=
  match disk.contents path with
  | none => none
  | some data => fromKeyfileData G P data path

/-- The notes that `mark_seen` makes, or nothing when a key cannot be removed. -/
def note (r : SavedReport) (kf : K) : Option K :=
  let kf := G.setString kf group (ofString "Seen") (ofString "true")
  let kf :=
    if r.backtrace ≠ [] then
      G.setString (G.setString kf group (ofString "Backtrace") (escapeBlock r.backtrace)) group
        (ofString "BacktraceTool") r.backtraceTool
    else kf
  if r.corePath = [] then G.removeKey kf group (ofString "Core") else some kf

/-- `mark_seen`: the files and the report afterwards, where it returns true. -/
def markSeen (disk : Disk) (r : SavedReport) : Option (Disk × SavedReport) :=
  if h : r.reportPath = [] then none
  else
    match (disk.contents r.reportPath).bind (G.load true) with
    | none => none
    | some kf =>
      match note G r kf with
      | none => none
      | some kf =>
        if disk.writable r.reportPath then
          some (disk.write r.reportPath (G.data kf) h, { r with seen := true })
        else none

/-- The files after `mark_seen`, which leaves them alone where it returns false. -/
def noted (disk : Disk) (r : SavedReport) : Disk :=
  ((markSeen G disk r).map Prod.fst).getD disk

end Files

/-- The report that is read again is the one that was noted. -/
structure Persists (r again : SavedReport) : Prop where
  seen : again.seen = true
  pid : again.pid = r.pid
  signalNumber : again.signalNumber = r.signalNumber
  timestamp : again.timestamp = r.timestamp
  executable : again.executable = r.executable
  commandLine : again.commandLine = r.commandLine
  desktopFile : again.desktopFile = r.desktopFile
  corePath : again.corePath = r.corePath
  backtrace : strip again.backtrace = strip r.backtrace

/-! ### Blocks of lines -/

theorem escapeBlock_eq (text : Text) : escapeBlock text = Escape.escape text := by
  rw [escapeBlock, List.flatMap_assoc, Escape.escape]
  refine congrArg (fun f => text.flatMap f) (funext fun b => ?_)
  rcases Escape.piece_cases b with ⟨rfl, hpiece⟩ | ⟨rfl, hpiece⟩ | ⟨hslash, hline, hpiece⟩
  · rfl
  · rfl
  · rw [hpiece, if_neg hslash, List.flatMap_singleton, if_neg hline]

theorem unescapeBlock_escapeBlock (text : Text) : unescapeBlock (escapeBlock text) = text := by
  rw [unescapeBlock, escapeBlock_eq]
  exact Escape.unescape_escape text

/-! ### What the notes change -/

section Laws

variable {K : Type*} {G : KeyFiles K} {P : Parsers} {kf kf' : K} {r : SavedReport}

theorem readString_congr {key : Text} (hkey : G.hasKey kf' group key = G.hasKey kf group key)
    (hget : G.getString kf' group key = G.getString kf group key) :
    readString G kf' key = readString G kf key := by
  rw [readString, hkey, hget, readString]

theorem readString_of_some {key value : Text} (hkey : G.hasKey kf group key = true)
    (hget : G.getString kf group key = some value) : readString G kf key = strip value := by
  rw [readString, if_pos hkey, hget]
  rfl

theorem readString_of_missing {key : Text} (hkey : G.hasKey kf group key = false) :
    readString G kf key = [] := if_neg (by simp [hkey])

/-- The keys that `mark_seen` writes or removes. -/
def noteKeys : List Text :=
  [ofString "Seen", ofString "Backtrace", ofString "BacktraceTool", ofString "Core"]

/-- What the key file says after the notes. -/
structure Notes (G : KeyFiles K) (r : SavedReport) (kf kf' : K) : Prop where
  hasGroup : G.hasGroup kf' group = true
  others : ∀ key ∉ noteKeys, readString G kf' key = readString G kf key
  seen : readString G kf' (ofString "Seen") = ofString "true"
  backtrace : readString G kf' (ofString "Backtrace") =
    if r.backtrace ≠ [] then strip (escapeBlock r.backtrace)
    else readString G kf (ofString "Backtrace")
  core : readString G kf' (ofString "Core") =
    if r.corePath = [] then [] else readString G kf (ofString "Core")

/-- The key file before the core is removed. -/
def unremoved (G : KeyFiles K) (r : SavedReport) (kf : K) : K :=
  let kf := G.setString kf group (ofString "Seen") (ofString "true")
  if r.backtrace ≠ [] then
    G.setString (G.setString kf group (ofString "Backtrace") (escapeBlock r.backtrace)) group
      (ofString "BacktraceTool") r.backtraceTool
  else kf

theorem note_eq (G : KeyFiles K) (r : SavedReport) (kf : K) : note G r kf =
    if r.corePath = [] then G.removeKey (unremoved G r kf) group (ofString "Core")
    else some (unremoved G r kf) := rfl

theorem readString_keeps {key other : Text} (h : G.Keeps kf kf' group key) (hne : other ≠ key) :
    readString G kf' other = readString G kf other :=
  readString_congr (h.hasKey other hne) (h.getString other hne)

variable (hG : G.Lawful) (hgroup : G.hasGroup kf group = true)
include hG hgroup

/-- One key is set. -/
theorem setString_spec (key value : Text) (hkey : KeyFile.IsName key) :
    G.Keeps kf (G.setString kf group key value) group key ∧
    (IsString value → readString G (G.setString kf group key value) key = strip value) := by
  obtain ⟨hkeeps, hhas, hget⟩ := hG.set kf group key value (by decide +kernel) hkey hgroup
  exact ⟨hkeeps, fun hvalue => readString_of_some hhas (hget hvalue)⟩

theorem unremoved_spec (hbacktrace : IsString r.backtrace) :
    G.hasGroup (unremoved G r kf) group = true ∧
    (∀ key ∉ noteKeys, readString G (unremoved G r kf) key = readString G kf key) ∧
    readString G (unremoved G r kf) (ofString "Seen") = ofString "true" ∧
    readString G (unremoved G r kf) (ofString "Backtrace") =
      (if r.backtrace ≠ [] then strip (escapeBlock r.backtrace)
      else readString G kf (ofString "Backtrace")) ∧
    G.hasKey (unremoved G r kf) group (ofString "Core") = G.hasKey kf group (ofString "Core") ∧
    readString G (unremoved G r kf) (ofString "Core") = readString G kf (ofString "Core") := by
  obtain ⟨seen, hseen⟩ : ∃ seen, seen = G.setString kf group (ofString "Seen")
    (ofString "true") := ⟨_, rfl⟩
  obtain ⟨hkeeps, hvalue⟩ := setString_spec hG hgroup (ofString "Seen") (ofString "true")
    (by decide +kernel)
  rw [← hseen] at hkeeps hvalue
  have htrue : readString G seen (ofString "Seen") = ofString "true" :=
    (hvalue (by decide)).trans (by decide)
  have hgroup₁ := hkeeps.hasGroup hgroup
  by_cases hnone : r.backtrace = []
  · have hun : unremoved G r kf = seen := by
      rw [hseen]
      exact if_neg (not_not.mpr hnone)
    rw [hun, if_neg (not_not.mpr hnone)]
    refine ⟨hgroup₁, fun key hkey => readString_keeps hkeeps fun he => hkey ?_, htrue,
      readString_keeps hkeeps (by decide), hkeeps.hasKey _ (by decide),
      readString_keeps hkeeps (by decide)⟩
    rw [he]
    exact List.mem_cons_self
  · obtain ⟨trace, htrace⟩ : ∃ trace, trace = G.setString seen group (ofString "Backtrace")
      (escapeBlock r.backtrace) := ⟨_, rfl⟩
    obtain ⟨hkeeps₁, hvalue₁⟩ := setString_spec hG hgroup₁ (ofString "Backtrace")
      (escapeBlock r.backtrace) (by decide +kernel)
    rw [← htrace] at hkeeps₁ hvalue₁
    have hgroup₂ := hkeeps₁.hasGroup hgroup₁
    obtain ⟨hkeeps₂, -⟩ := setString_spec hG hgroup₂ (ofString "BacktraceTool")
      r.backtraceTool (by decide +kernel)
    have hun : unremoved G r kf =
        G.setString trace group (ofString "BacktraceTool") r.backtraceTool := by
      rw [htrace, hseen]
      exact if_pos hnone
    have hstring : IsString (escapeBlock r.backtrace) := by
      rw [escapeBlock_eq]
      exact Escape.isString_escape hbacktrace
    rw [hun, if_pos hnone]
    refine ⟨hkeeps₂.hasGroup hgroup₂, fun key hkey => ?_, ?_, ?_, ?_, ?_⟩
    · rw [readString_keeps hkeeps₂ fun he => hkey (by simp [he, noteKeys]),
        readString_keeps hkeeps₁ fun he => hkey (by simp [he, noteKeys]),
        readString_keeps hkeeps fun he => hkey (by simp [he, noteKeys])]
    · rw [readString_keeps hkeeps₂ (by decide), readString_keeps hkeeps₁ (by decide), htrue]
    · rw [readString_keeps hkeeps₂ (by decide), hvalue₁ hstring]
    · rw [hkeeps₂.hasKey _ (by decide), hkeeps₁.hasKey _ (by decide), hkeeps.hasKey _ (by decide)]
    · rw [readString_keeps hkeeps₂ (by decide), readString_keeps hkeeps₁ (by decide),
        readString_keeps hkeeps (by decide)]

/-- The notes are made when there is a core to keep or a key to remove. -/
theorem note_spec (hbacktrace : IsString r.backtrace)
    (hcore : r.corePath ≠ [] ∨ G.hasKey kf group (ofString "Core") = true) :
    ∃ kf', note G r kf = some kf' ∧ Notes G r kf kf' := by
  obtain ⟨hgroup', hothers, hseen, htrace, hhas, hread⟩ := unremoved_spec hG hgroup hbacktrace
  rw [note_eq]
  by_cases hempty : r.corePath = []
  · have hkey := hhas.trans (hcore.resolve_left (not_not.mpr hempty))
    obtain ⟨kf', hremove, hkeeps, hmissing⟩ := hG.remove_some _ _ _ hkey
    rw [if_pos hempty]
    refine ⟨kf', hremove, hkeeps.hasGroup hgroup', fun key hk => ?_, ?_, ?_, ?_⟩
    · rw [readString_keeps hkeeps fun he => hk (by simp [he, noteKeys]), hothers key hk]
    · rw [readString_keeps hkeeps (by decide), hseen]
    · rw [readString_keeps hkeeps (by decide), htrace]
    · rw [if_pos hempty, readString_of_missing hmissing]
  · rw [if_neg hempty]
    refine ⟨_, rfl, hgroup', hothers, hseen, htrace, ?_⟩
    rw [if_neg hempty, hread]

theorem note_eq_none (hbacktrace : IsString r.backtrace) (hempty : r.corePath = [])
    (hkey : G.hasKey kf group (ofString "Core") = false) : note G r kf = none := by
  obtain ⟨-, -, -, -, hhas, -⟩ := unremoved_spec hG hgroup hbacktrace
  rw [note_eq, if_pos hempty]
  exact hG.remove_none _ _ _ (hhas.trans hkey)

end Laws

/-! ### The report that is read again -/

section Again

variable {K : Type*} {G : KeyFiles K} {P : Parsers} {kf kf' : K} {r r₀ : SavedReport}
variable {disk : Disk} {path text : Text}

theorem fromFile_iff : fromFile G P disk path = some r ↔ ∃ text kf,
    disk.contents path = some text ∧ G.load false text = some kf ∧ G.hasGroup kf group = true ∧
    (0 < r.pid ∧ r.executable ≠ []) ∧ readReport G P kf path = r := by
  rw [fromFile]
  cases hcontents : disk.contents path with
  | none => simp
  | some text =>
    dsimp only
    rw [fromKeyfileData]
    cases hload : G.load false text with
    | none => simp [hload]
    | some kf =>
      dsimp only
      by_cases hgroup : G.hasGroup kf group = true
      · rw [if_neg (by simp [hgroup])]
        constructor
        · intro h
          split_ifs at h with hbad
          obtain rfl := Option.some_inj.mp h
          rw [not_or, not_le] at hbad
          exact ⟨text, kf, rfl, hload, hgroup, hbad, rfl⟩
        · rintro ⟨text', kf', htext, hkf, -, hgood, rfl⟩
          obtain rfl := Option.some_inj.mp htext
          obtain rfl : kf = kf' := Option.some_inj.mp (hload.symm.trans hkf)
          exact if_neg (not_or.mpr ⟨not_le.mpr hgood.1, hgood.2⟩)
      · rw [if_pos (by simpa using hgroup)]
        refine iff_of_false (Option.some_ne_none r).symm ?_
        rintro ⟨text', kf', htext, hkf, hg, -⟩
        obtain rfl := Option.some_inj.mp htext
        obtain rfl : kf = kf' := Option.some_inj.mp (hload.symm.trans hkf)
        exact hgroup hg

theorem readReport_congr (h : ∀ key, readString G kf' key = readString G kf key) :
    readReport G P kf' path = readReport G P kf path := by
  simp only [readReport, readInt, readDouble, readAppId, readCore, h]

theorem KeyFiles.Same.readString_eq (h : G.Same kf' kf) (key : Text) :
    readString G kf' key = readString G kf key :=
  readString_congr (h.hasKey group key) (h.getString group key)

/-- The keys that are not noted are read as before. -/
theorem Notes.readReport (h : Notes G r kf kf') (path : Text) :
    (Crash.readReport G P kf' path).pid = (Crash.readReport G P kf path).pid ∧
    (Crash.readReport G P kf' path).signalNumber =
      (Crash.readReport G P kf path).signalNumber ∧
    (Crash.readReport G P kf' path).timestamp = (Crash.readReport G P kf path).timestamp ∧
    (Crash.readReport G P kf' path).executable = (Crash.readReport G P kf path).executable ∧
    (Crash.readReport G P kf' path).commandLine = (Crash.readReport G P kf path).commandLine ∧
    (Crash.readReport G P kf' path).desktopFile =
      (Crash.readReport G P kf path).desktopFile := by
  simp only [Crash.readReport, readInt, readDouble]
  rw [h.others (ofString "Pid") (by decide), h.others (ofString "Signal") (by decide),
    h.others (ofString "Time") (by decide), h.others (ofString "Executable") (by decide),
    h.others (ofString "CommandLine") (by decide), h.others (ofString "DesktopFile") (by decide)]
  exact ⟨rfl, rfl, rfl, rfl, rfl, rfl⟩

/-- The file is written: it can be, and the key of the core is there when it is to be removed. -/
def Saves (G : KeyFiles K) (disk : Disk) (r : SavedReport) : Prop :=
  disk.writable r.reportPath = true ∧ (r.corePath ≠ [] ∨
    ∃ text kf, disk.contents r.reportPath = some text ∧ G.load true text = some kf ∧
      G.hasKey kf group (ofString "Core") = true)

/-- What `mark_seen` depends on, `r₀` being the report in the file. A backtrace that is empty is not
written. -/
def Noted (G : KeyFiles K) (disk : Disk) (r₀ r : SavedReport) : Prop :=
  (Saves G disk r ∧ (r.backtrace ≠ [] ∨ strip r₀.backtrace = [])) ∨
  (¬ Saves G disk r ∧ r₀.seen = true ∧ r.corePath = r₀.corePath ∧
    strip r.backtrace = strip r₀.backtrace)

variable (hG : G.Lawful)
include hG

/-- The file is written exactly when `Saves` says so. -/
theorem markSeen_cases (hpath : r.reportPath = path) (hne : path ≠ [])
    (htext : disk.contents path = some text) (hload : G.load true text = some kf)
    (hgroup : G.hasGroup kf group = true) (hbacktrace : IsString r.backtrace) :
    (Saves G disk r ∧ ∃ kf', Notes G r kf kf' ∧
      markSeen G disk r = some (disk.write path (G.data kf') hne, { r with seen := true })) ∨
    (¬ Saves G disk r ∧ markSeen G disk r = none) := by
  subst hpath
  have hbind : (disk.contents r.reportPath).bind (G.load true) = some kf := by
    rw [htext, Option.bind_some, hload]
  have hkey : (∃ text kf, disk.contents r.reportPath = some text ∧ G.load true text = some kf ∧
      G.hasKey kf group (ofString "Core") = true) ↔
      G.hasKey kf group (ofString "Core") = true := by
    constructor
    · rintro ⟨text', kf', htext', hload', hhas⟩
      obtain rfl : text = text' := Option.some_inj.mp (htext.symm.trans htext')
      obtain rfl : kf = kf' := Option.some_inj.mp (hload.symm.trans hload')
      exact hhas
    · exact fun hhas => ⟨text, kf, htext, hload, hhas⟩
  rw [Saves, hkey, markSeen, dif_neg hne, hbind]
  dsimp only
  by_cases hcore : r.corePath ≠ [] ∨ G.hasKey kf group (ofString "Core") = true
  · obtain ⟨kf', hnote, hnotes⟩ := note_spec hG hgroup hbacktrace hcore
    rw [hnote]
    dsimp only
    by_cases hwritable : disk.writable r.reportPath = true
    · rw [if_pos hwritable]
      exact Or.inl ⟨⟨hwritable, hcore⟩, kf', hnotes, rfl⟩
    · rw [if_neg hwritable]
      exact Or.inr ⟨fun h => hwritable h.1, rfl⟩
  · obtain ⟨hempty, hmissing⟩ := not_or.mp hcore
    rw [note_eq_none hG hgroup hbacktrace (not_not.mp hempty) (by simpa using hmissing)]
    exact Or.inr ⟨fun h => hcore h.2, rfl⟩

omit hG in
/-- The core that is read again: it was given up, or it is the one that was read. -/
theorem Notes.readCore (h : Notes G r kf kf')
    (hcore : r.corePath = Crash.readCore G kf path ∨ r.corePath = []) :
    Crash.readCore G kf' path = r.corePath := by
  rw [Crash.readCore, h.core]
  by_cases hempty : r.corePath = []
  · rw [if_pos hempty, hempty]
    exact if_neg fun hbad => hbad.1 rfl
  · rw [if_neg hempty, hcore.resolve_right hempty, Crash.readCore]

omit hG in
/-- The backtrace that is read again, up to blanks. -/
theorem Notes.readBacktrace (h : Notes G r kf kf') :
    strip (unescapeBlock (readString G kf' (ofString "Backtrace"))) =
      if r.backtrace ≠ [] then strip r.backtrace
      else strip (unescapeBlock (readString G kf (ofString "Backtrace"))) := by
  rw [h.backtrace]
  by_cases hne : r.backtrace ≠ []
  · rw [if_pos hne, if_pos hne, unescapeBlock, escapeBlock_eq]
    exact Escape.strip_unescape r.backtrace
  · rw [if_neg hne, if_neg hne]

omit hG in
/-- After the notes were made, the backtrace is all that may be missing. -/
theorem Notes.persists_iff (h : Notes G r kf kf') (hread : Crash.readReport G P kf path = r₀)
    (hr : r = { r₀ with
      appId := r.appId
      backtrace := r.backtrace
      backtraceTool := r.backtraceTool
      corePath := r.corePath })
    (hcore : r.corePath = r₀.corePath ∨ r.corePath = []) :
    Persists r (Crash.readReport G P kf' path) ↔
      r.backtrace ≠ [] ∨ strip r₀.backtrace = [] := by
  obtain ⟨hpid, hsignal, htime, hexe, hcommand, hdesktop⟩ := h.readReport (P := P) path
  rw [hread] at hpid hsignal htime hexe hcommand hdesktop
  have hblank : strip (Crash.readReport G P kf' path).backtrace =
      if r.backtrace ≠ [] then strip r.backtrace else strip r₀.backtrace := by
    rw [← hread]
    exact h.readBacktrace
  constructor
  · intro hpersists
    by_contra hbad
    obtain ⟨hempty, hold⟩ := not_or.mp hbad
    have hsame := hblank.symm.trans hpersists.backtrace
    rw [if_neg hempty, not_not.mp hempty] at hsame
    exact hold hsame
  · intro hgood
    refine ⟨decide_eq_true h.seen, ?_, ?_, ?_, ?_, ?_, ?_, h.readCore ?_, ?_⟩
    · rw [hpid, hr]
    · rw [hsignal, hr]
    · rw [htime, hr]
    · rw [hexe, hr]
    · rw [hcommand, hr]
    · rw [hdesktop, hr]
    · rw [← hread] at hcore
      exact hcore
    · rw [hblank]
      by_cases hne : r.backtrace ≠ []
      · exact if_pos hne
      · rw [if_neg hne, hgood.resolve_left hne, not_not.mp hne]
        rfl

/-- **When the notes survive.** A block of lines is read as it was written. A report that was read
from a file, whose backtrace has been made since and whose core may have been given up, is read
again as it was noted exactly when the file could be written and there was a backtrace to write, or
when there was nothing new to note. -/
theorem markSeen_iff (h₀ : fromFile G P disk path = some r₀)
    (hr : r = { r₀ with
      appId := r.appId
      backtrace := r.backtrace
      backtraceTool := r.backtraceTool
      corePath := r.corePath })
    (hcore : r.corePath = r₀.corePath ∨ r.corePath = []) (hbacktrace : IsString r.backtrace) :
    (∀ text, unescapeBlock (escapeBlock text) = text) ∧
    ((∃ again, fromFile G P (noted G disk r) path = some again ∧ Persists r again) ↔
      Noted G disk r₀ r) := by
  refine ⟨unescapeBlock_escapeBlock, ?_⟩
  obtain ⟨text, first, htext, hfirst, hgroup, ⟨hpid, hexe⟩, hread⟩ := fromFile_iff.mp h₀
  obtain ⟨kf, hload, hsame⟩ := hG.load_keep text first hfirst
  have hgroup' : G.hasGroup kf group = true := (hsame.hasGroup group).trans hgroup
  have hne : path ≠ [] := by
    rintro rfl
    rw [disk.no_name] at htext
    exact Option.some_ne_none text htext.symm
  have hread' : readReport G P kf path = r₀ :=
    (readReport_congr (KeyFiles.Same.readString_eq hsame)).trans hread
  have hpath : r.reportPath = path := by
    rw [hr, ← hread]
    rfl
  rcases markSeen_cases hG hpath hne htext hload hgroup' hbacktrace with
    ⟨hsaves, kf', hnotes, hmark⟩ | ⟨hfails, hmark⟩
  · have hnoted : noted G disk r = disk.write path (G.data kf') hne := by
      rw [noted, hmark]
      rfl
    obtain ⟨kf'', hagain, hsame'⟩ := hG.load_data kf' false
    have hread'' : readReport G P kf'' path = readReport G P kf' path :=
      readReport_congr (KeyFiles.Same.readString_eq hsame')
    obtain ⟨hpid', -, -, hexe', -, -⟩ := hnotes.readReport (P := P) path
    rw [hread'] at hpid' hexe'
    have hfile : fromFile G P (noted G disk r) path = some (readReport G P kf' path) := by
      refine fromFile_iff.mpr ⟨G.data kf', kf'', ?_, hagain, ?_, ⟨?_, ?_⟩, hread''⟩
      · rw [hnoted]
        exact Function.update_self ..
      · rw [hsame'.hasGroup, hnotes.hasGroup]
      · rw [hpid']
        exact hpid
      · rw [hexe']
        exact hexe
    rw [hfile, Noted, ← hnotes.persists_iff hread' hr hcore]
    constructor
    · rintro ⟨again, hsome, hpersists⟩
      rw [Option.some_inj.mp hsome]
      exact Or.inl ⟨hsaves, hpersists⟩
    · rintro (⟨-, hpersists⟩ | ⟨hno, -⟩)
      · exact ⟨_, rfl, hpersists⟩
      · exact absurd hsaves hno
  · have hnoted : noted G disk r = disk := by
      rw [noted, hmark]
      rfl
    rw [hnoted, h₀, Noted]
    constructor
    · rintro ⟨again, hsome, hpersists⟩
      obtain rfl := Option.some_inj.mp hsome
      exact Or.inr ⟨hfails, hpersists.seen, hpersists.corePath.symm, hpersists.backtrace.symm⟩
    · rintro (⟨hbad, -⟩ | ⟨-, hseen, hsame', htrace⟩)
      · exact absurd hbad hfails
      · refine ⟨r₀, rfl, hseen, ?_, ?_, ?_, ?_, ?_, ?_, hsame'.symm, htrace.symm⟩
        · rw [hr]
        · rw [hr]
        · rw [hr]
        · rw [hr]
        · rw [hr]
        · rw [hr]

end Again

/-- The readers, for rows of digits. -/
def digitParsers : Parsers where
  tryInt64 text := if text.all isDigit then some (value text) else none
  tryDouble text := if text.all isDigit then some (.num (value text)) else none
  undefined _ _ := 0
  down text := text

/-- The file of a report, with the line of its core or without. The handler writes the line in any
case, as the last one: it is missing from a report that was cut at the size of the handler's buffer,
or that was edited. -/
def crashText (core : Bool) : Text :=
  ofString "[Crash]\nPid=7\nSignal=6\nTime=1\nExecutable=/bin/x\n" ++
    if core then ofString "Core=1-7.core\n" else []

def crashPath : Text := ofString "/c/1-7.crash"

def crashDisk (core : Bool) : Disk where
  contents path := if path = crashPath then some (crashText core) else none
  writable _ := true
  no_name := if_neg (by decide)

/-- The report as it is read. -/
def crashReport (core : Bool) : SavedReport where
  source := .handler
  pid := 7
  executable := ofString "/bin/x"
  signalNumber := 6
  timestamp := 1
  corePath := if core then ofString "/c/1-7.core" else []
  reportPath := crashPath

/-- The report with a backtrace, the core having been given up. -/
def traced (core : Bool) : SavedReport :=
  { crashReport core with
    backtrace := ofString "#0 abort ()\n#1 main ()"
    backtraceTool := ofString "gdb"
    corePath := [] }

theorem fromFile_crashDisk (core : Bool) :
    fromFile KeyFile.plain digitParsers (crashDisk core) crashPath = some (crashReport core) := by
  cases core
  · decide +kernel
  · decide +kernel

/-- A report with the line of its core keeps its notes. -/
theorem persists_traced : ∃ again, fromFile KeyFile.plain digitParsers
    (noted KeyFile.plain (crashDisk true) (traced true)) crashPath = some again ∧
    Persists (traced true) again := by
  obtain ⟨kf, hkf⟩ : ∃ kf, KeyFile.plain.load true (crashText true) = some kf :=
    Option.isSome_iff_exists.mp (by decide +kernel)
  refine (markSeen_iff KeyFile.plain_lawful (fromFile_crashDisk true) rfl (Or.inr rfl)
    (by decide)).2.mpr (Or.inl ⟨⟨rfl, Or.inr ⟨_, kf, rfl, hkf, ?_⟩⟩, Or.inl (by decide)⟩)
  have hkey : (KeyFile.plain.load true (crashText true)).map
      (fun kf => KeyFile.plain.hasKey kf group (ofString "Core")) = some true := by
    decide +kernel
  rw [hkf] at hkey
  exact Option.some_inj.mp hkey

/-- **A report without the line of its core loses its notes.** There is no key to remove, and
nothing is saved. -/
theorem not_persists_of_coreless :
    fromFile KeyFile.plain digitParsers (crashDisk false) crashPath = some (crashReport false) ∧
    ¬ ∃ again, fromFile KeyFile.plain digitParsers
      (noted KeyFile.plain (crashDisk false) (traced false)) crashPath = some again ∧
      Persists (traced false) again := by
  refine ⟨fromFile_crashDisk false, ?_⟩
  rintro ⟨again, hagain, hpersists⟩
  have hseen : (fromFile KeyFile.plain digitParsers
      (noted KeyFile.plain (crashDisk false) (traced false)) crashPath).map (·.seen) =
      some false := by
    decide +kernel
  rw [hagain, Option.map_some, hpersists.seen] at hseen
  exact absurd hseen (by decide)

end Crash

end SingularityShell
