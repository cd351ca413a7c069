import Mathlib.Tactic.IntervalCases
import SingularityShell.Lib.Json
import SingularityShell.Lib.Path
import SingularityShell.Lib.Transition

/-!
# The clipboard history

The history keeps the texts and images that were copied, the newest first, with a limit for those
that are not pinned. The pinned ones are written to a JSON file, with the images in files beside it.

## Main definitions

* `Clipboard.ClipboardEntry`, `Clipboard.ClipboardModel` — the history
* `Clipboard.ClipboardModel.add`, `setPinned`, `remove`, `clear` — the operations
* `Clipboard.ClipboardModel.pinnedToJson`, `loadPinned` — writing and reading the pinned entries
* `Clipboard.Op`, `Clipboard.ClipboardModel.step` — one call of any operation
-/

namespace SingularityShell

namespace Clipboard

open Ascii SingularityShell.Path Utf8

/-- The libraries of the history: JSON, the SHA-256 digest in hexadecimal digits, and the repair of
texts that are not UTF-8. -/
structure Library extends Json.Library where
  checksum : Text → Text
  makeValid : Text → Text
  isHex_checksum : ∀ data, ∀ b ∈ checksum data, isDigit b ∨ 97 ≤ b ∧ b ≤ 102
  isString_makeValid : ∀ text, 0 ∉ text → IsString (makeValid text)

/-- The digits of a byte. -/
def hexByte (b : UInt8) : Text :=
  [b.toNat / 16, b.toNat % 16].map fun n => if n < 10 then (48 + n).toUInt8 else (87 + n).toUInt8

theorem isHex_hexByte {b c : UInt8} (h : c ∈ hexByte b) : isDigit c ∨ 97 ≤ c ∧ c ≤ 102 := by
  obtain ⟨n, hn, rfl⟩ := List.mem_map.mp h
  have hlt : n < 16 := by
    have := b.toNat_lt
    simp only [List.mem_cons, List.not_mem_nil, or_false] at hn
    omega
  interval_cases n <;> decide

/-- A library whose digest is the data itself, and that repairs a text by dropping it. -/
noncomputable def plainLibrary : Library where
  toLibrary := Json.plainLibrary
  checksum data := data.flatMap hexByte
  makeValid text := if IsString text then text else []
  isHex_checksum data b hb := by
    obtain ⟨c, -, hc⟩ := List.mem_flatMap.mp hb
    exact isHex_hexByte hc
  isString_makeValid text _ := by
    split
    · next h => exact h
    · exact isString_nil

structure ClipboardEntry where
  id : UInt32
  mime : Text
  data : Text
  digest : Text
  pinned : Bool := false
  timestamp : ℤ
  deriving DecidableEq

structure ClipboardModel where
  entries : List ClipboardEntry := []
  limit : ℤ := 50
  nextId : UInt32 := 1
  deriving DecidableEq

def isImage (mime : Text) : Bool := (ofString "image/").isPrefixOf mime

def isTextMime (mime : Text) : Bool :=
  (ofString "text/").isPrefixOf mime ∨ mime = ofString "UTF8_STRING" ∨ mime = ofString "STRING" ∨
    mime = ofString "TEXT"

/-- `text/plain;charset=utf-8` -/
def plainMime : Text := ofString "text/plain;charset=utf-8"

variable (lib : Library)

/-- The constructor of an entry. -/
def ClipboardEntry.new (id : UInt32) (mime data : Text) (timestamp : ℤ) : ClipboardEntry :=
  { id, mime, data, digest := lib.checksum data, timestamp }

/-- `text`: the data as a C string, repaired. -/
def ClipboardEntry.text (e : ClipboardEntry) : Text :=
  if isImage e.mime then []
  else
    let t := e.data.takeWhile (· ≠ 0)
    if validate t then t else lib.makeValid t

namespace ClipboardModel

variable (m : ClipboardModel)

/-! ### Operations -/

/-- The loop of `trim`: the entries that stay, after `unpinned` unpinned ones. -/
def trimFrom (limit : ℤ) : ℕ → List ClipboardEntry → List ClipboardEntry
  | _, [] => []
  | unpinned, e :: entries =>
    if e.pinned then e :: trimFrom limit unpinned entries
    else if ((unpinned + 1 : ℕ) : ℤ) > limit then trimFrom limit (unpinned + 1) entries
    else e :: trimFrom limit (unpinned + 1) entries

def trim : ClipboardModel := { m with entries := trimFrom m.limit 0 m.entries }

/-- What `add` takes. -/
def accepts (mime data : Text) : Bool := data ≠ [] ∧ (isTextMime mime ∨ isImage mime)

/-- The entry that `add` makes. -/
def newEntry (mime data : Text) (timestamp : ℤ) : ClipboardEntry :=
  .new lib m.nextId (if isTextMime mime then plainMime else mime) data timestamp

/-- `add`: the entry returned, and the history after the call. Content that is present moves to the
front. -/
def add (mime data : Text) (timestamp : ℤ) : Option ClipboardEntry × ClipboardModel :=
  if !accepts mime data then (none, m)
  else
    let entry := m.newEntry lib mime data timestamp
    let m := { m with nextId := m.nextId + 1 }
    if isTextMime mime ∧ strip (entry.text lib) = [] then (none, m)
    else
      match m.entries.find? (·.digest = entry.digest) with
      | some e =>
        let e' := { e with timestamp }
        (some e', { m with entries := e' :: m.entries.eraseP (·.digest = entry.digest) })
      | none => (some entry, trim { m with entries := entry :: m.entries })

def find (id : UInt32) : Option ClipboardEntry := m.entries.find? (·.id = id)

def setPinned (id : UInt32) (pinned : Bool) : ClipboardModel :=
  match m.find id with
  | none => m
  | some e =>
    if e.pinned = pinned then m
    else
      let entries := m.entries.modify (m.entries.findIdx (·.id = id)) fun e => { e with pinned }
      trim { m with entries }

def remove (id : UInt32) : ClipboardModel := { m with entries := m.entries.eraseP (·.id = id) }

def clear (keepPinned : Bool) : ClipboardModel :=
  { m with entries := if keepPinned then m.entries.filter (·.pinned) else [] }

/-! ### The file of the pinned entries -/

/-- The name of the file of an image. -/
def imageFile (e : ClipboardEntry) : Text := e.digest ++ ofString ".img"

/-- The object of a pinned entry. -/
def entryToJson (e : ClipboardEntry) : Json :=
  .object ([(ofString "mime", .string e.mime), (ofString "timestamp", .int e.timestamp)] ++
    if isImage e.mime then [(ofString "file", .string (imageFile e))]
    else [(ofString "text", .string (e.text lib))])

/-- The pinned entries, in their order. -/
def pinnedEntries : List ClipboardEntry := m.entries.filter (·.pinned)

/-- The file of an image, over the files that are there. -/
def writeImage (imageDir : Text) (files : Text → Option Text) (e : ClipboardEntry) :
    Text → Option Text :=
  if isImage e.mime then
    fun path => if path = buildFilename imageDir (imageFile e) then some e.data else files path
  else files

/-- The files after the loop of `pinned_to_json`. -/
def writeImages (imageDir : Text) (files : Text → Option Text) : Text → Option Text :=
  m.pinnedEntries.foldl (writeImage imageDir) files

/-- `pinned_to_json`: the JSON, and the files after the call. -/
def pinnedToJson (imageDir : Text) (files : Text → Option Text) : Json × (Text → Option Text) :=
  (.object [(ofString "version", .int 1),
    (ofString "pinned", .array (m.pinnedEntries.map (entryToJson lib)))],
    m.writeImages imageDir files)

/-- The data of an element of the array: a text, or the content of a file that can be read. -/
def readData (imageDir : Text) (files : Text → Option Text) (p : List (Text × Json)) :
    Option Text :=
  match p.lookup (ofString "text") with
  | some node => some (lib.getString node)
  | none =>
    match p.lookup (ofString "file") with
    | some node => files (buildFilename imageDir (basename (lib.getString node)))
    | none => none

/-- The mime type, the data and the timestamp of an element of the array, unless it is no object or
has no data. -/
def readItem (imageDir : Text) (files : Text → Option Text) : Json → Option (Text × Text × ℤ)
  | .object p =>
    match readData lib imageDir files p with
    | some data =>
      if data = [] then none
      else some (lib.stringOr "mime" p plainMime, data, lib.intOr "timestamp" p 0)
    | none => none
  | _ => none

/-- The items of a file of pinned entries, if it has any. -/
def readItems (imageDir : Text) (files : Text → Option Text) :
    Option Json → Option (List (Text × Text × ℤ))
  | some (.object o) =>
    (o.lookup (ofString "pinned")).map fun node =>
      (lib.getElements node).filterMap (readItem lib imageDir files)
  | _ => none

/-- The entries of the items, with the next identifiers. -/
def pinItems (nextId : UInt32) : List (Text × Text × ℤ) → List ClipboardEntry
  | [] => []
  | (mime, data, timestamp) :: items =>
    { ClipboardEntry.new lib nextId mime data timestamp with pinned := true } ::
      pinItems (nextId + 1) items

/-- One turn of the last loop of `load_pinned`. -/
def insertPinned (entries : List ClipboardEntry) (e : ClipboardEntry) : List ClipboardEntry :=
  if entries.any (·.digest = e.digest) then
    entries.map fun x => if x.digest = e.digest then { x with pinned := true } else x
  else entries ++ [e]

/-- `load_pinned`, with what the parser made of the file. -/
def loadPinned (json : Option Json) (imageDir : Text) (files : Text → Option Text) :
    ClipboardModel :=
  match readItems lib imageDir files json with
  | none => m
  | some items =>
    { m with
      entries := (pinItems lib m.nextId items).foldl insertPinned m.entries
      nextId := m.nextId + .ofNat items.length }

end ClipboardModel

/-! ### Runs -/

/-- A call of the program that can change the history. -/
inductive Op where
  | add (mime data : Text) (timestamp : ℤ)
  | setPinned (id : UInt32) (pinned : Bool)
  | remove (id : UInt32)
  | clear (keepPinned : Bool)
  | setLimit (limit : ℤ)
  | loadPinned (json : Option Json) (imageDir : Text) (files : Text → Option Text)

def ClipboardModel.step (m : ClipboardModel) : Op → ClipboardModel
  | .add mime data timestamp => (m.add lib mime data timestamp).2
  | .setPinned id pinned => m.setPinned id pinned
  | .remove id => m.remove id
  | .clear keepPinned => m.clear keepPinned
  | .setLimit limit => { m with limit }
  | .loadPinned json imageDir files => m.loadPinned lib json imageDir files

end Clipboard

end SingularityShell
