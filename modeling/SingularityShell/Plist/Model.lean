import SingularityShell.Lib.Ascii
import SingularityShell.Lib.Binary64
import SingularityShell.Lib.Machine
import SingularityShell.Lib.Traced

/-!
# Binary property lists

The reader of the property lists in the metadata of imported pictures. It runs on bytes that anybody
may have written, and leaves a trace of the indices that it uses.

## Main definitions

* `Plist.Value` — a property list
* `Plist.readUint`, `Plist.readObject`, `Plist.objectAt` — the reader
* `Plist.parse` — a property list from bytes
-/

namespace SingularityShell

namespace Plist

open Ascii Binary64 Machine

/-- `PlistValue`: the kind of a value with the field that belongs to it. -/
inductive Value where
  | null
  | bool (boolean : Bool)
  | int (integer : ℤ)
  | real (real : Double)
  | string (text : Text)
  | data (text : Text)
  | array (items : List Value)
  | dict (members : List (Text × Value))

/-- The field `text`, which is empty for the other kinds. -/
def Value.text : Value → Text
  | .string text => text
  | .data text => text
  | _ => []

/-- `HashTable.insert`: the value of a key that is there is replaced. -/
def insert (members : List (Text × Value)) (key : Text) (val : Value) : List (Text × Value) :=
  if members.any (·.1 = key) then members.map fun m => if m.1 = key then (key, val) else m
  else members ++ [(key, val)]

/-- What the reader does with positions: it compares `pos + count` with the length of the data, or
it uses an index. -/
inductive Access where
  | compare (pos count : ℤ)
  | read (index : ℤ)
  deriving DecidableEq

/-- How the reader ends without a value: it throws, or an index is not in the data. -/
inductive Stop where
  | thrown (message : String)
  | fault
  deriving DecidableEq

abbrev Reader := Traced Access Stop

def throws {α : Type} (message : String) : Reader α := .stop (.thrown message)

/-- The array of bytes, whose length is an `int`. -/
abbrev Data := { data : List UInt8 // data.length < 2 ^ 31 }

/-! ### Bytes -/

variable (data : Data)

/-- `data[index]` -/
def byte (index : ℤ) : Reader UInt8 where
  log := [.read index]
  result :=
    match if index < 0 then none else data.val[index.toNat]? with
    | some b => .ok b
    | none => .error .fault

/-- `pos + count > data.length` -/
def overflows (pos count : ℤ) : Reader Bool where
  log := [.compare pos count]
  result := .ok (wrap64 (pos + count) > data.val.length)

/-- The loop of `read_uint`, `i` bytes after `pos`. -/
def readUintFrom (pos : ℤ) : ℕ → ℤ → ℕ → Reader ℕ
  | 0, _, v => pure v
  | n + 1, i, v => do
    let b ← byte data (wrap64 (pos + i))
    readUintFrom pos n (i + 1) (v * 256 % 2 ^ 64 + b.toNat)

def readUint (pos : ℤ) (size : ℕ) : Reader ℕ := do
  if pos < 0 then throws "Property list overflow"
  else if ← overflows data pos size then throws "Property list overflow"
  else readUintFrom data pos size 0 0

/-- A count, which stands in the marker or in an integer after it, and the position after it. -/
def readCount (info : ℕ) (pos : ℤ) : Reader (ℤ × ℤ) :=
  if info ≠ 15 then pure (info, pos)
  else do
    let marker ← readUint data pos 1
    if marker / 16 ≠ 1 then throws "Bad count"
    else
      let size := 2 ^ (marker % 16)
      let count ← readUint data (wrap64 (pos + 1)) size
      pure (wrap64 count, wrap64 (pos + (1 + size)))

/-- The loop that appends `n` bytes to a string. -/
def readText (pos : ℤ) : ℕ → ℤ → Reader Text
  | 0, _ => pure []
  | n + 1, i => do
    let b ← byte data (wrap64 (pos + i))
    let text ← readText pos n (i + 1)
    pure (b :: text)

/-- `g_unichar_to_utf8`, for surrogates too. -/
def unicharToUtf8 (c : ℕ) : Text :=
  if c < 128 then [c.toUInt8]
  else if c < 2048 then [(192 + c / 64).toUInt8, (128 + c % 64).toUInt8]
  else if c < 65536 then
    [(224 + c / 4096).toUInt8, (128 + c / 64 % 64).toUInt8, (128 + c % 64).toUInt8]
  else [(240 + c / 262144).toUInt8, (128 + c / 4096 % 64).toUInt8, (128 + c / 64 % 64).toUInt8,
    (128 + c % 64).toUInt8]

/-- The loop that appends `n` units of two bytes as characters. -/
def readUnits (pos : ℤ) : ℕ → ℤ → Reader Text
  | 0, _ => pure []
  | n + 1, i => do
    let c ← readUint data (wrap64 (pos + wrap64 (i * 2))) 2
    let text ← readUnits pos n (i + 1)
    pure (unicharToUtf8 c ++ text)

/-- A string ends at its first NUL when it is taken out of its builder. -/
def toStr (bytes : Text) : Text := bytes.takeWhile (· ≠ 0)

/-! ### Objects -/

/-- What the trailer says. -/
structure Trailer where
  offsetSize : ℕ
  refSize : ℕ
  numObjects : ℤ
  tableOffset : ℤ

variable (t : Trailer) (object : ℤ → Reader Value)

def offsetOf (index : ℤ) : Reader ℤ := do
  if index < 0 ∨ index ≥ t.numObjects then throws "Bad object reference"
  else
    let offset ← readUint data (wrap64 (t.tableOffset + wrap64 (index * t.offsetSize))) t.offsetSize
    pure (wrap64 offset)

/-- The object that reference `i` after `pos` refers to. -/
def readRef (pos i : ℤ) : Reader Value := do
  let index ← readUint data (wrap64 (pos + wrap64 (i * t.refSize))) t.refSize
  object (wrap64 index)

/-- The loop over the items of an array. -/
def readItems (pos : ℤ) : ℕ → ℤ → Reader (List Value)
  | 0, _ => pure []
  | n + 1, i => do
    let v ← readRef data t object pos i
    let items ← readItems pos n (i + 1)
    pure (v :: items)

/-- The loop over the members of a dictionary of `count` members. -/
def readMembers (pos count : ℤ) : ℕ → ℤ → List (Text × Value) → Reader (List (Text × Value))
  | 0, _, members => pure members
  | n + 1, i, members => do
    let key ← readRef data t object pos i
    let val ← readRef data t object pos (wrap64 (count + i))
    readMembers pos count n (i + 1) (insert members key.text val)

/-- An integer of `2 ^ info` bytes, of which eight at most are read. -/
def readInt (info : ℕ) (pos : ℤ) : Reader Value := do
  let raw ← readUint data pos (min (2 ^ info) 8)
  pure (.int (wrap64 raw))

def readReal (info : ℕ) (pos : ℤ) : Reader Value := do
  let raw ← readUint data pos (2 ^ info)
  if 2 ^ info = 4 then pure (.real (ofBits32 (raw % 2 ^ 32)))
  else if 2 ^ info = 8 then pure (.real (ofBits64 raw))
  else throws "Bad real size"

def readBytes (type info : ℕ) (pos : ℤ) : Reader Value := do
  let (count, pos) ← readCount data info pos
  if ← overflows data pos count then throws "String overflow"
  else
    let text ← readText data pos count.toNat 0
    pure (if type = 4 then .data (toStr text) else .string (toStr text))

def readUtf16 (info : ℕ) (pos : ℤ) : Reader Value := do
  let (count, pos) ← readCount data info pos
  let text ← readUnits data pos count.toNat 0
  pure (.string (toStr text))

def readArray (info : ℕ) (pos : ℤ) : Reader Value := do
  let (count, pos) ← readCount data info pos
  let items ← readItems data t object pos count.toNat 0
  pure (.array items)

def readDict (info : ℕ) (pos : ℤ) : Reader Value := do
  let (count, pos) ← readCount data info pos
  let members ← readMembers data t object pos count count.toNat 0 []
  pure (.dict members)

/-- The rest of an object, by the type in its marker. -/
def readType (type info : ℕ) (pos : ℤ) : Reader Value :=
  match type with
  | 0 => pure (if info = 8 ∨ info = 9 then .bool (info = 9) else .null)
  | 1 => readInt data info pos
  | 2 => readReal data info pos
  | 4 => readBytes data 4 info pos
  | 5 => readBytes data 5 info pos
  | 6 => readUtf16 data info pos
  | 10 => readArray data t object info pos
  | 13 => readDict data t object info pos
  | _ => pure .null

def readObject (pos : ℤ) : Reader Value := do
  let marker ← readUint data pos 1
  readType data t object (marker / 16) (marker % 16) (wrap64 (pos + 1))

/-- The object of an index, `left` levels above the limit of the depth. -/
def objectAt : ℕ → ℤ → Reader Value
  | 0, _ => throws "Property list too deep"
  | left + 1, index => do
    let pos ← offsetOf data t index
    readObject data t (objectAt left) pos

/-- `BinaryPlist.parse` -/
def parse : Reader Value :=
  if data.val.length < 40 ∨ data.val.take 8 ≠ ofString "bplist00" then
    throws "Not a binary property list"
  else do
    let t : ℤ := data.val.length - 32
    let offsetSize ← byte data (t + 6)
    let refSize ← byte data (t + 7)
    let numObjects ← readUint data (t + 8) 8
    let top ← readUint data (t + 16) 8
    let tableOffset ← readUint data (t + 24) 8
    let trailer : Trailer :=
      ⟨offsetSize.toNat, refSize.toNat, wrap64 numObjects, wrap64 tableOffset⟩
    if trailer.offsetSize < 1 ∨ trailer.offsetSize > 8 ∨ trailer.refSize < 1 ∨
        trailer.refSize > 8 then throws "Bad property list trailer"
    else if wrap64 (trailer.tableOffset + wrap64 (trailer.numObjects * trailer.offsetSize)) > t ∨
        wrap64 top ≥ trailer.numObjects then throws "Bad property list offsets"
    else objectAt data trailer 64 (wrap64 top)

end Plist

end SingularityShell
