import Mathlib.Data.List.Nodup
import SingularityShell.Focus.Model

/-!
# The file of the focus modes

The modes are stored as a JSON object. Nothing is required of the file: members that are absent have
defaults, and elements that are no modes are passed over.

## Main definitions

* `Focus.FocusSchedule.formatMinute`, `parseMinute` — times of the day
* `Focus.FocusMode.toJson`, `Focus.FocusMode.fromJson` — one mode
* `Focus.FocusModeSet.toData`, `Focus.FocusModeSet.fromData` — the file

## Main results

* `Focus.FocusModeSet.wellFormed_fromData` — what is true of the modes that any file gives
-/

namespace SingularityShell

namespace Focus

open Ascii Machine

variable (lib : Json.Library)

/-! ### Schedules -/

/-- The sign of a number, and what follows it. -/
def splitSign : Text → Bool × Text
  | 45 :: digits => (true, digits)
  | 43 :: digits => (false, digits)
  | digits => (false, digits)

/-- `atoi`: white space, a sign and digits, as a `long` that is cut to an `int`. -/
def atoi (text : Text) : ℤ :=
  let (negative, digits) := splitSign (text.dropWhile fun b => isSpace b || b = 11)
  let n : ℤ := value (digits.takeWhile isDigit)
  wrap32 (if negative then max (-n) (-2 ^ 63) else min n (2 ^ 63 - 1))

/-- `%02d` -/
def printTwo (n : ℤ) : Text := if n < 0 then 45 :: padded 1 n.natAbs else padded 2 n.natAbs

namespace FocusSchedule

/-- `format_minute` -/
def formatMinute (minute : ℤ) : Text := printTwo (minute.tdiv 60) ++ 58 :: printTwo (minute.tmod 60)

/-- `parse_minute` -/
def parseMinute (text : Text) (fallback : ℤ) : ℤ :=
  let text := strip text
  match if text = [] then [] else text.splitOn 58 with
  | [hours, minutes] =>
    let h := atoi hours
    let m := atoi minutes
    if h < 0 ∨ h > 23 ∨ m < 0 ∨ m > 59 then fallback else h * 60 + m
  | _ => fallback

/-- `to_json` -/
def toJson (s : FocusSchedule) : Json :=
  .object
    [(ofString "days", .int s.days.toInt),
      (ofString "start", .string (formatMinute s.startMinute)),
      (ofString "end", .string (formatMinute s.endMinute)),
      (ofString "enabled", .bool s.enabled)]

/-- `from_json` -/
def fromJson (o : List (Text × Json)) : FocusSchedule :=
  .new (.ofInt (lib.intOr "days" o allDays.toInt) &&& allDays)
    (parseMinute (lib.stringOr "start" o []) (22 * 60))
    (parseMinute (lib.stringOr "end" o []) (7 * 60))
    (lib.boolOr "enabled" o true)

end FocusSchedule

/-! ### Modes -/

/-- An element of the array of people. -/
def FocusPerson.toJson (p : FocusPerson) : Json :=
  .object
    [(ofString "name", .string p.name),
      (ofString "handles", .array (p.handles.map .string))]

/-- The elements of a member, none when there is no such member. -/
def elements (key : String) (o : List (Text × Json)) : List Json :=
  match o.lookup (ofString key) with
  | some node => lib.getElements node
  | none => []

/-- What is made of an element of the array of people. -/
def FocusPerson.fromJson : Json → Option FocusPerson
  | .object po =>
    some
      { name := lib.stringOr "name" po []
        handles := (elements lib "handles" po).map lib.getString }
  | _ => none

namespace FocusMode

/-- `to_json` -/
def toJson (m : FocusMode) : Json :=
  .object
    [(ofString "id", .string m.id),
      (ofString "name", .string m.name),
      (ofString "icon", .string m.iconName),
      (ofString "builtin", .bool m.builtin),
      (ofString "allow-time-sensitive", .bool m.allowTimeSensitive),
      (ofString "while-presenting", .bool m.whilePresenting),
      (ofString "while-fullscreen", .bool m.whileFullscreen),
      (ofString "apps", .array (m.allowedApps.map .string)),
      (ofString "people", .array (m.allowedPeople.map (·.toJson))),
      (ofString "schedules", .array (m.schedules.map (·.toJson)))]

/-- What is made of an element of the array of apps. -/
def appFromJson : Json → Option Text
  | .string text => some text
  | _ => none

/-- What is made of an element of the array of schedules. -/
def scheduleFromJson : Json → Option FocusSchedule
  | .object o => some (.fromJson lib o)
  | _ => none

/-- `from_json` -/
def fromJson (o : List (Text × Json)) : Option FocusMode :=
  match o.lookup (ofString "id") with
  | none => none
  | some node =>
    let id := lib.getString node
    if id = [] then none
    else some
      { id
        name := lib.stringOr "name" o id
        iconName := lib.stringOr "icon" o (ofString "notifications-disabled-symbolic")
        builtin := lib.boolOr "builtin" o false
        allowTimeSensitive := lib.boolOr "allow-time-sensitive" o true
        whilePresenting := lib.boolOr "while-presenting" o false
        whileFullscreen := lib.boolOr "while-fullscreen" o false
        allowedApps := (elements lib "apps" o).filterMap appFromJson
        allowedPeople := (elements lib "people" o).filterMap (FocusPerson.fromJson lib)
        schedules := (elements lib "schedules" o).filterMap (scheduleFromJson lib) }

end FocusMode

/-! ### The file -/

namespace FocusModeSet

/-- `to_data`, before the generator writes it as a text. -/
def toData (set : FocusModeSet) : Json :=
  .object
    [(ofString "version", .int 1),
      (ofString "modes", .array (set.modes.map (·.toJson)))]

/-- What an element of the array of modes adds. -/
def addElement (set : FocusModeSet) : Json → FocusModeSet
  | .object o =>
    match FocusMode.fromJson lib o with
    | some m => if (set.find m.id).isNone then ⟨set.modes ++ [m]⟩ else set
    | none => set
  | _ => set

/-- `from_data`, of what the parser makes of the file: nothing when there is no file, or when it is
no JSON text. -/
def fromData (root : Option Json) : FocusModeSet :=
  match root with
  | some (.object obj) =>
    match obj.lookup (ofString "modes") with
    | none => defaults
    | some node =>
      let set := (lib.getElements node).foldl (addElement lib) {}
      if (set.find doNotDisturb).isNone then
        ⟨(defaults.find doNotDisturb).toList ++ set.modes⟩
      else set
  | _ => defaults

/-- What every set of modes meets: no two modes have one identifier, none of these is empty, and one
of the modes is the one that is used when another is missing. -/
structure WellFormed (set : FocusModeSet) : Prop where
  ids : (set.modes.map (·.id)).Nodup
  named : ∀ m ∈ set.modes, m.id ≠ []
  doNotDisturb : (set.find doNotDisturb).isSome

variable {lib}

theorem find_isNone_iff {set : FocusModeSet} {id : Text} :
    (set.find id).isNone ↔ id ∉ set.modes.map (·.id) := by
  rw [find, Option.isNone_iff_eq_none, List.find?_eq_none]
  simp

theorem find_isSome_iff {set : FocusModeSet} {id : Text} :
    (set.find id).isSome ↔ id ∈ set.modes.map (·.id) := by
  rw [← Option.not_isNone, ← not_iff_not, ← find_isNone_iff]
  simp

theorem wellFormed_defaults : WellFormed defaults where
  ids := by decide
  named := by decide
  doNotDisturb := by decide

theorem fromJson_id_ne_nil {o : List (Text × Json)} {m : FocusMode}
    (h : FocusMode.fromJson lib o = some m) : m.id ≠ [] := by
  rw [FocusMode.fromJson] at h
  cases hid : o.lookup (ofString "id") with
  | none => simp [hid] at h
  | some node =>
    simp only [hid, Option.ite_none_left_eq_some, Option.some.injEq] at h
    obtain ⟨hne, rfl⟩ := h
    exact hne

/-- An element keeps the identifiers different and not empty. -/
theorem addElement_spec {set : FocusModeSet} {node : Json}
    (h : (set.modes.map (·.id)).Nodup ∧ ∀ m ∈ set.modes, m.id ≠ []) :
    ((addElement lib set node).modes.map (·.id)).Nodup ∧
      ∀ m ∈ (addElement lib set node).modes, m.id ≠ [] := by
  cases node with
  | object o =>
    rw [addElement]
    split
    · next m hm =>
      by_cases hfind : (set.find m.id).isNone
      · rw [if_pos hfind]
        refine ⟨?_, fun m' hm' => ?_⟩
        · rw [List.map_append]
          refine List.nodup_append_comm.mp (List.nodup_cons.mpr ⟨?_, h.1⟩)
          exact find_isNone_iff.mp hfind
        · rcases List.mem_append.mp hm' with hm' | hm'
          · exact h.2 m' hm'
          · rw [List.mem_singleton.mp hm']
            exact fromJson_id_ne_nil hm
      · rwa [if_neg hfind]
    · exact h
  | _ => exact h

theorem foldl_addElement_spec (lib : Json.Library) (set : FocusModeSet) (nodes : List Json)
    (h : (set.modes.map (·.id)).Nodup ∧ ∀ m ∈ set.modes, m.id ≠ []) :
    ((nodes.foldl (addElement lib) set).modes.map (·.id)).Nodup ∧
      ∀ m ∈ (nodes.foldl (addElement lib) set).modes, m.id ≠ [] := by
  induction nodes generalizing set with
  | nil => exact h
  | cons node nodes ih => exact ih _ (addElement_spec h)

/-- **What is true of the modes that any file gives.** -/
theorem wellFormed_fromData (root : Option Json) : WellFormed (fromData lib root) := by
  rcases root with _ | node
  · exact wellFormed_defaults
  cases node with
  | object obj =>
    rw [fromData]
    split
    · exact wellFormed_defaults
    next node _ =>
    dsimp only
    obtain ⟨hids, hnamed⟩ := foldl_addElement_spec lib {} (lib.getElements node) ⟨.nil, by simp⟩
    generalize (lib.getElements node).foldl (addElement lib) {} = set at hids hnamed
    by_cases hfind : (set.find Focus.doNotDisturb).isNone
    · rw [if_pos hfind]
      obtain ⟨dnd, hdnd⟩ := Option.isSome_iff_exists.mp wellFormed_defaults.doNotDisturb
      have hid : dnd.id = Focus.doNotDisturb := by simpa using List.find?_some hdnd
      rw [hdnd]
      refine ⟨List.nodup_cons.mpr ⟨?_, hids⟩, fun m hm => ?_, find_isSome_iff.mpr ?_⟩
      · change dnd.id ∉ set.modes.map (·.id)
        rw [hid]
        exact find_isNone_iff.mp hfind
      · rcases List.mem_cons.mp hm with rfl | hm
        · exact wellFormed_defaults.named _ (List.mem_of_find?_eq_some hdnd)
        · exact hnamed m hm
      · exact List.mem_cons.mpr (Or.inl hid.symm)
    · rw [if_neg hfind]
      refine ⟨hids, hnamed, ?_⟩
      rwa [← Option.not_isNone, Bool.not_eq_true', ← Bool.not_eq_true]
  | _ => exact wellFormed_defaults

end FocusModeSet

end Focus

end SingularityShell
