import SingularityShell.Lib.Binary64
import SingularityShell.Lib.Utf8

/-!
# JSON

JSON trees, and what a program relies on when it writes a tree as a text and reads the text again.

## Main definitions

* `Json` — a value
* `Json.All` — a property of every value inside a value
* `Json.Kept` — the values that are the same when they are read again
* `Json.Library` — the getters of values, and a text written and read
* `Json.Library.stringOr`, `intOr`, `boolOr` — members that may be absent
* `Json.Library.stringWithDefault`, `intWithDefault`, `boolWithDefault` — members that may also be
  null
-/

namespace SingularityShell

open Ascii Binary64 Utf8

/-- A value of a JSON text. -/
inductive Json where
  | null
  | bool (b : Bool)
  | int (n : ℤ)
  | double (x : Double)
  | string (text : Text)
  | array (elements : List Json)
  | object (members : List (Text × Json))

namespace Json

/-- Every leaf has a property, and so has every name of a member, as a string. -/
inductive All (p : Json → Prop) : Json → Prop
  | null : p .null → All p .null
  | bool {b} : p (.bool b) → All p (.bool b)
  | int {n} : p (.int n) → All p (.int n)
  | double {x} : p (.double x) → All p (.double x)
  | string {text} : p (.string text) → All p (.string text)
  | array {elements} : (∀ e ∈ elements, All p e) → All p (.array elements)
  | object {members} : (∀ m ∈ members, p (.string m.1)) → (∀ m ∈ members, All p m.2) →
    All p (.object members)

/-- A leaf that the library can represent: strings are strings, and integers have 64 bits. -/
def Proper : Json → Prop
  | .string text => IsString text
  | .int n => -2 ^ 63 ≤ n ∧ n < 2 ^ 63
  | _ => True

/-- A leaf that is the same when it is read again. -/
def Plain : Json → Prop
  | .double _ => False
  | node => Proper node

/-- The value is the same when it is read again. -/
def Kept (node : Json) : Prop := All Plain node

theorem All.mono {p q : Json → Prop} (h : ∀ node, p node → q node) {node : Json}
    (hp : All p node) : All q node := by
  induction hp with
  | null hp => exact .null (h _ hp)
  | bool hp => exact .bool (h _ hp)
  | int hp => exact .int (h _ hp)
  | double hp => exact .double (h _ hp)
  | string hp => exact .string (h _ hp)
  | array _ ih => exact .array ih
  | object hn _ ih => exact .object (fun m hm => h _ (hn m hm)) ih

theorem Kept.proper {node : Json} (h : Kept node) : All Proper node := by
  refine h.mono fun node hp => ?_
  cases node <;> trivial

theorem kept_object {members : List (Text × Json)} (hn : ∀ m ∈ members, IsString m.1)
    (hv : ∀ m ∈ members, Kept m.2) : Kept (.object members) := .object hn hv

/-- The JSON library: the getters return what was put into a value, and `reparse` is what the parser
makes of the text that the generator writes for a value, if it takes the text. -/
structure Library where
  getString : Json → Text
  getInt : Json → ℤ
  getBool : Json → Bool
  getElements : Json → List Json
  reparse : Json → Option Json
  getString_string : ∀ text, getString (.string text) = text
  getInt_int : ∀ n, getInt (.int n) = n
  getBool_bool : ∀ b, getBool (.bool b) = b
  getElements_array : ∀ elements, getElements (.array elements) = elements
  isString_getString : ∀ node, All Proper node → IsString (getString node)
  int64_getInt : ∀ node, All Proper node → -2 ^ 63 ≤ getInt node ∧ getInt node < 2 ^ 63
  all_getElements : ∀ node, All Proper node → ∀ e ∈ getElements node, All Proper e
  reparse_of_kept : ∀ node, Kept node → reparse node = some node
  proper_reparse : ∀ node node', reparse node = some node' → All Proper node'

/-! ### Members -/

section
variable (lib : Library) {members : List (Text × Json)} (key : String)

/-- The string of a member, or a default when there is no such member. -/
def Library.stringOr (members : List (Text × Json)) (fallback : Text) : Text :=
  match members.lookup (ofString key) with
  | some node => lib.getString node
  | none => fallback

/-- The number of a member, or a default. -/
def Library.intOr (members : List (Text × Json)) (fallback : ℤ) : ℤ :=
  match members.lookup (ofString key) with
  | some node => lib.getInt node
  | none => fallback

/-- The truth value of a member, or a default. -/
def Library.boolOr (members : List (Text × Json)) (fallback : Bool) : Bool :=
  match members.lookup (ofString key) with
  | some node => lib.getBool node
  | none => fallback

/-- A member that is a value, and not null. -/
def valueMember (members : List (Text × Json)) (key : String) : Option Json :=
  match members.lookup (ofString key) with
  | none | some .null | some (.array _) | some (.object _) => none
  | some node => some node

/-- `json_object_get_string_member_with_default` -/
def Library.stringWithDefault (members : List (Text × Json)) (fallback : Text) : Text :=
  ((valueMember members key).map lib.getString).getD fallback

/-- `json_object_get_int_member_with_default` -/
def Library.intWithDefault (members : List (Text × Json)) (fallback : ℤ) : ℤ :=
  ((valueMember members key).map lib.getInt).getD fallback

/-- `json_object_get_boolean_member_with_default` -/
def Library.boolWithDefault (members : List (Text × Json)) (fallback : Bool) : Bool :=
  ((valueMember members key).map lib.getBool).getD fallback

variable {lib key}

theorem lookup_cons_of_ne {name name' : Text} {node : Json} (h : name ≠ name') :
    ((name', node) :: members).lookup name = members.lookup name := by
  rw [List.lookup_cons, beq_eq_false_iff_ne.mpr h]

theorem all_of_lookup {p : Json → Prop} (h : ∀ m ∈ members, All p m.2) {name : Text} {node : Json}
    (hl : members.lookup name = some node) : All p node := by
  obtain ⟨l₁, l₂, rfl, -⟩ := List.lookup_eq_some_iff.mp hl
  exact h (name, node) (by simp)

theorem Library.isString_stringOr (h : ∀ m ∈ members, All Proper m.2) {fallback : Text}
    (hf : IsString fallback) : IsString (lib.stringOr key members fallback) := by
  rw [Library.stringOr]
  split
  · next node hl => exact lib.isString_getString node (all_of_lookup h hl)
  · exact hf

theorem Library.int64_intOr (h : ∀ m ∈ members, All Proper m.2) {fallback : ℤ}
    (hf : -2 ^ 63 ≤ fallback ∧ fallback < 2 ^ 63) :
    -2 ^ 63 ≤ lib.intOr key members fallback ∧ lib.intOr key members fallback < 2 ^ 63 := by
  rw [Library.intOr]
  split
  · next node hl => exact lib.int64_getInt node (all_of_lookup h hl)
  · exact hf

theorem Library.stringOr_of_lookup {text fallback : Text}
    (h : members.lookup (ofString key) = some (.string text)) :
    lib.stringOr key members fallback = text := by
  rw [Library.stringOr, h]
  exact lib.getString_string text

theorem Library.intOr_of_lookup {n fallback : ℤ}
    (h : members.lookup (ofString key) = some (.int n)) :
    lib.intOr key members fallback = n := by
  rw [Library.intOr, h]
  exact lib.getInt_int n

end

open Classical in
/-- A library that gives a default for nodes of another type, and that takes the texts it has kept.
-/
noncomputable def plainLibrary : Library where
  getString | .string text => text | _ => []
  getInt | .int n => n | _ => 0
  getBool | .bool b => b | _ => false
  getElements | .array elements => elements | _ => []
  reparse node := if Kept node then some node else none
  getString_string _ := rfl
  getInt_int _ := rfl
  getBool_bool _ := rfl
  getElements_array _ := rfl
  isString_getString node h := by
    cases h with
    | string h => exact h
    | _ => exact isString_nil
  int64_getInt node h := by
    have hzero : (-2 : ℤ) ^ 63 ≤ 0 ∧ (0 : ℤ) < 2 ^ 63 := by decide
    cases h with
    | int h => exact h
    | _ => exact hzero
  all_getElements node h := by
    cases h with
    | array h => exact h
    | _ => exact fun e he => (by cases he)
  reparse_of_kept node h := if_pos h
  proper_reparse node node' h := by
    split at h
    · next hk => exact Option.some.inj h ▸ hk.proper
    · cases h

end Json

end SingularityShell
