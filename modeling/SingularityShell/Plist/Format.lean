import SingularityShell.Plist.Model

/-!
# The format

The encodings of a property list, whatever the order of its objects, the sizes in the trailer and
the forms of its counts and integers.

## Main definitions

* `Plist.Form` — a scalar as it is written, `Plist.Form.meant` what it stands for
* `Plist.Holds` — the object of an index encodes a value
* `Plist.Encodes` — a file encodes a value
* `Plist.Form.Plain` — the scalars that the reader understands
-/

namespace SingularityShell

namespace Plist

open Ascii

/-- A number in `n` bytes, the most significant first. -/
def be : ℕ → ℕ → List UInt8
  | 0, _ => []
  | n + 1, v => (v / 256 ^ n).toUInt8 :: be n v

/-- The bytes stand at a position of the data. -/
def At (data : Data) (pos : ℕ) (bytes : List UInt8) : Prop := bytes <+: data.val.drop pos

/-- The units of a character. -/
def utf16 (c : Char) : List ℕ :=
  if c.toNat < 65536 then [c.toNat]
  else [55296 + (c.toNat - 65536) / 1024, 56320 + (c.toNat - 65536) % 1024]

/-- The text of a list of characters, in UTF-8. -/
def utf8 (cs : List Char) : Text := cs.flatMap fun c => unicharToUtf8 c.toNat

/-- The start of an object with a count: the count is in the marker, or in an integer after it. -/
inductive Head (type count : ℕ) : List UInt8 → Prop
  | inline (h : count < 15) : Head type count [(type * 16 + count).toUInt8]
  | extended (k : ℕ) (hk : k ≤ 4) (h : count < 256 ^ 2 ^ k) :
    Head type count ((type * 16 + 15).toUInt8 :: (16 + k).toUInt8 :: be (2 ^ k) count)

/-! ### Scalars -/

/-- A scalar as it is written. An integer has a number of bytes. -/
inductive Form where
  | bool (b : Bool)
  | int (bytes : ℕ) (v : ℤ)
  | ascii (text : Text)
  | utf16 (cs : List Char)

/-- What a form stands for. -/
def Form.meant : Form → Value
  | .bool b => .bool b
  | .int _ v => .int v
  | .ascii text => .string text
  | .utf16 cs => .string (utf8 cs)

/-- The integers of `2 ^ k` bytes: those of one, two and four bytes have no sign, and those of
sixteen are here when they fit in eight. -/
def intRange (k : ℕ) (v : ℤ) : Prop :=
  if k < 3 then 0 ≤ v ∧ v < 256 ^ 2 ^ k
  else if k = 3 then -2 ^ 63 ≤ v ∧ v < 2 ^ 63
  else k = 4 ∧ -2 ^ 63 ≤ v ∧ v < 2 ^ 64

/-- The bytes of a form. -/
inductive Form.Bytes : Form → List UInt8 → Prop
  | bool (b : Bool) : Form.Bytes (.bool b) [if b then 9 else 8]
  | int (k : ℕ) (v : ℤ) (h : intRange k v) :
    Form.Bytes (.int (2 ^ k) v) ((16 + k).toUInt8 :: be (2 ^ k) (v % 256 ^ 2 ^ k).toNat)
  | ascii (text : Text) (head : List UInt8) (h : ∀ b ∈ text, b < 128)
    (hhead : Head 5 text.length head) : Form.Bytes (.ascii text) (head ++ text)
  | utf16 (cs : List Char) (head : List UInt8)
      (hhead : Head 6 (cs.flatMap Plist.utf16).length head) :
    Form.Bytes (.utf16 cs) (head ++ (cs.flatMap Plist.utf16).flatMap (be 2))

/-- The scalars that the reader understands: no integer of sixteen bytes but `0` and `-1`, no NUL,
and no character outside the basic plane in UTF-16. -/
def Form.Plain : Form → Prop
  | .bool _ => True
  | .int bytes v => bytes = 16 → v = 0 ∨ v = -1
  | .ascii text => 0 ∉ text
  | .utf16 cs => ∀ c ∈ cs, c.toNat ≠ 0 ∧ c.toNat < 65536

/-! ### Objects -/

/-- The sizes and numbers in the trailer of a file. -/
structure Layout where
  offsetSize : ℕ
  refSize : ℕ
  numObjects : ℕ
  tableOffset : ℕ
  offsetSize_range : 1 ≤ offsetSize ∧ offsetSize ≤ 8
  refSize_range : 1 ≤ refSize ∧ refSize ≤ 8

/-- The offset table gives a position for an index. -/
structure Entry (data : Data) (t : Layout) (index pos : ℕ) : Prop where
  listed : index < t.numObjects
  fits : pos < 256 ^ t.offsetSize
  stands : At data (t.tableOffset + index * t.offsetSize) (be t.offsetSize pos)

/-- The references of a list, each of which fits in its size. -/
structure Refs (t : Layout) (refs : List ℕ) (bytes : List UInt8) : Prop where
  fits : ∀ r ∈ refs, r < 256 ^ t.refSize
  bytes : bytes = refs.flatMap (be t.refSize)

/-- The object of an index encodes a value that is nested at most so deep, and every scalar in it is
written in a form that has `ok`. -/
inductive Holds (data : Data) (t : Layout) (ok : Form → Prop) : ℕ → ℕ → Value → Prop
  | scalar {depth index pos : ℕ} {form : Form} {bytes : List UInt8}
    (hentry : Entry data t index pos)
    (hat : At data pos bytes) (hbytes : form.Bytes bytes) (hok : ok form) :
    Holds data t ok depth index form.meant
  | array {depth index pos : ℕ} {head tail : List UInt8} {refs : List ℕ} {items : List Value}
    (hentry : Entry data t index pos) (hat : At data pos (head ++ tail))
    (hhead : Head 10 items.length head) (hrefs : Refs t refs tail)
    (hlen : refs.length = items.length)
    (hitems : ∀ r v, (r, v) ∈ refs.zip items → Holds data t ok depth r v) :
    Holds data t ok (depth + 1) index (.array items)
  | dict {depth index pos : ℕ} {head tail : List UInt8} {keyRefs valRefs : List ℕ}
    {keys : List Text} {vals : List Value} (hentry : Entry data t index pos)
    (hat : At data pos (head ++ tail)) (hhead : Head 13 keys.length head)
    (hrefs : Refs t (keyRefs ++ valRefs) tail) (hkeyLen : keyRefs.length = keys.length)
    (hvalLen : valRefs.length = vals.length) (hlen : keys.length = vals.length)
    (hdistinct : keys.Nodup)
    (hkeys : ∀ r k, (r, k) ∈ keyRefs.zip keys → Holds data t ok depth r (.string k))
    (hvals : ∀ r v, (r, v) ∈ valRefs.zip vals → Holds data t ok depth r v) :
    Holds data t ok (depth + 1) index (.dict (keys.zip vals))

/-- The data is a property list that encodes a value nested less than 64 deep. -/
structure Encodes (data : Data) (ok : Form → Prop) (v : Value) : Prop where
  header : At data 0 (ofString "bplist00")
  file : ∃ (t : Layout) (top : ℕ), 8 ≤ t.tableOffset ∧ top < t.numObjects ∧
    t.tableOffset + t.numObjects * t.offsetSize + 32 ≤ data.val.length ∧
    At data (data.val.length - 32 + 6) (t.offsetSize.toUInt8 :: t.refSize.toUInt8 ::
      (be 8 t.numObjects ++ (be 8 top ++ be 8 t.tableOffset))) ∧
    Holds data t ok 63 top v

end Plist

end SingularityShell
