import SingularityShell.Focus.Format
import SingularityShell.Lib.Lists
import SingularityShell.Lib.Transition

/-!
# Saved focus modes

What becomes of the modes that a user has made when they are written to the file and read again.

## Main definitions

* `Focus.FocusModeSet.Edit`, `Focus.FocusModeSet.step` — what a user can do to the modes
* `Focus.FocusModeSet.Storable` — the values that can be set

## Main results

* `Focus.FocusModeSet.find_uniqueId` — a new mode has an identifier of its own
* `Focus.FocusModeSet.fromData_toData` — the modes are the same after they are read again
* `Focus.FocusModeSet.saved_of_edits` — so they are after any changes
-/

namespace SingularityShell

namespace Focus

open Ascii Machine Transition Utf8

/-! ### Schedules -/

section
variable {lib : Json.Library}

theorem atoi_of_digits {digits : Text} (hne : digits ≠ []) (hd : ∀ b ∈ digits, isDigit b = true)
    (hlt : value digits < 2 ^ 31) : atoi digits = value digits := by
  obtain ⟨b, tail, rfl⟩ := List.exists_cons_of_ne_nil hne
  have hb : isDigit b = true := hd b List.mem_cons_self
  have hnot {c : UInt8} (hc : isDigit c = false) : b ≠ c := fun h => by simp [← h, hb] at hc
  have hspace : (isSpace b || b = 11) = false := by
    simp [isSpace_of_isDigit hb, hnot (c := 11) (by decide)]
  have hdrop : (b :: tail).dropWhile (fun b => isSpace b || b = 11) = b :: tail := by
    rw [List.dropWhile_cons_of_neg (by simpa using hspace)]
  have htake : (b :: tail).takeWhile isDigit = b :: tail := List.takeWhile_eq_self_iff.mpr hd
  have hsign : splitSign (b :: tail) = (false, b :: tail) := by
    rw [splitSign]
    · exact fun digits h => hnot (by decide) (List.cons.inj h).1
    · exact fun digits h => hnot (by decide) (List.cons.inj h).1
  rw [atoi, hdrop, hsign]
  dsimp only
  rw [htake, if_neg Bool.false_ne_true, min_eq_left (by omega), wrap32_eq (by omega) (by omega)]

namespace FocusSchedule

theorem formatMinute_natCast (n : ℕ) :
    formatMinute n = padded 2 (n / 60) ++ 58 :: padded 2 (n % 60) := by
  have hdiv : (n : ℤ).tdiv 60 = (n / 60 : ℕ) := rfl
  have hmod : (n : ℤ).tmod 60 = (n % 60 : ℕ) := rfl
  rw [formatMinute, hdiv, hmod, printTwo, printTwo, if_neg (by omega), if_neg (by omega),
    Int.natAbs_natCast, Int.natAbs_natCast]

/-- **Times of the day.** -/
theorem parseMinute_formatMinute {minute : ℤ} (h0 : 0 ≤ minute) (h1 : minute < 1440)
    (fallback : ℤ) : parseMinute (formatMinute minute) fallback = minute := by
  obtain ⟨n, rfl⟩ := Int.eq_ofNat_of_zero_le h0
  have hlt : n < 1440 := by omega
  obtain ⟨hstrip, hsplit⟩ := clock_spec (h := n / 60) (m := n % 60) (by omega) (by omega)
  have hne : padded 2 (n / 60) ++ 58 :: padded 2 (n % 60) ≠ [] := by simp
  have hatoi {k : ℕ} (hk : k < 100) : atoi (padded 2 k) = k := by
    obtain ⟨hlen, hdigits, hvalue⟩ := padded_spec 2 (by omega) (show k < 10 ^ 2 by omega)
    rw [atoi_of_digits (fun h => by simp [h] at hlen) hdigits (by omega), hvalue]
  simp only [parseMinute, formatMinute_natCast, hstrip, if_neg hne, hsplit]
  rw [hatoi (by omega), hatoi (by omega), if_neg (by omega)]
  omega

theorem isString_formatMinute {minute : ℤ} (h0 : 0 ≤ minute) (h1 : minute < 1440) :
    IsString (formatMinute minute) := by
  obtain ⟨n, rfl⟩ := Int.eq_ofNat_of_zero_le h0
  have hdigit {k : ℕ} (hk : k < 100) {b : UInt8} (hb : b ∈ padded 2 k) : b ≠ 0 ∧ b < 0x80 :=
    ascii_of_isDigit ((padded_spec 2 (by omega) (show k < 10 ^ 2 by omega)).2.1 b hb)
  rw [formatMinute_natCast]
  refine isString_of_ascii fun b hb => ?_
  rcases List.mem_append.mp hb with hb | hb
  · exact hdigit (by omega) hb
  · rcases List.mem_cons.mp hb with rfl | hb
    · decide
    · exact hdigit (by omega) hb

/-- A schedule that can be set. -/
structure Storable (s : FocusSchedule) : Prop where
  days : s.days &&& allDays = s.days
  start : 0 ≤ s.startMinute ∧ s.startMinute < 1440
  stop : 0 ≤ s.endMinute ∧ s.endMinute < 1440

theorem clampMinute_eq {minute : ℤ} (h : 0 ≤ minute ∧ minute < 1440) :
    clampMinute minute = minute := by
  rw [clampMinute, if_neg (by omega), if_neg (by omega)]

theorem fromJson_toJson {s : FocusSchedule} (h : Storable s) :
    FocusMode.scheduleFromJson lib s.toJson = some s := by
  simp (disch := decide) only [toJson, FocusMode.scheduleFromJson, fromJson, Json.Library.intOr,
    Json.Library.stringOr, Json.Library.boolOr, Json.lookup_cons_of_ne, List.lookup_cons_self,
    lib.getInt_int, lib.getString_string, lib.getBool_bool, Int32.ofInt_toInt]
  rw [h.days, parseMinute_formatMinute h.start.1 h.start.2,
    parseMinute_formatMinute h.stop.1 h.stop.2, new, clampMinute_eq h.start, clampMinute_eq h.stop]

theorem kept_toJson {s : FocusSchedule} (h : Storable s) : Json.Kept s.toJson := by
  have hnames : ∀ name ∈ ["days", "start", "end", "enabled"], IsString (ofString name) := by
    decide +kernel
  have hdays : Json.Kept (.int s.days.toInt) := by
    have hlow := s.days.le_toInt
    have hhigh := s.days.toInt_lt
    exact .int ⟨by omega, by omega⟩
  refine Json.kept_object ?_ ?_
  · simpa using hnames
  · simpa using ⟨hdays, .string (isString_formatMinute h.start.1 h.start.2),
      .string (isString_formatMinute h.stop.1 h.stop.2), .bool trivial⟩

end FocusSchedule

/-! ### Modes -/

/-- A person that can be set. -/
structure FocusPerson.Storable (p : FocusPerson) : Prop where
  name : IsString p.name
  handles : ∀ h ∈ p.handles, IsString h

theorem FocusPerson.fromJson_toJson (p : FocusPerson) :
    FocusPerson.fromJson lib p.toJson = some p := by
  simp (disch := decide) only [toJson, fromJson, elements, Json.Library.stringOr,
    Json.lookup_cons_of_ne, List.lookup_cons_self, lib.getString_string, lib.getElements_array,
    List.map_map]
  have hhandles : p.handles.map (lib.getString ∘ Json.string) = p.handles :=
    (List.map_congr_left fun h _ => lib.getString_string h).trans (List.map_id _)
  rw [hhandles]

theorem FocusPerson.kept_toJson {p : FocusPerson} (h : Storable p) : Json.Kept p.toJson := by
  have hnames : ∀ name ∈ ["name", "handles"], IsString (ofString name) := by decide +kernel
  have hhandles : Json.Kept (.array (p.handles.map .string)) :=
    .array (List.forall_mem_map.mpr fun text ht => .string (h.handles text ht))
  refine Json.kept_object ?_ ?_
  · simpa using hnames
  · simpa using ⟨.string h.name, hhandles⟩

namespace FocusMode

/-- A mode whose values can be set. -/
structure Storable (m : FocusMode) : Prop where
  name : IsString m.name
  iconName : IsString m.iconName
  allowedApps : ∀ app ∈ m.allowedApps, IsString app
  allowedPeople : ∀ p ∈ m.allowedPeople, p.Storable
  schedules : ∀ s ∈ m.schedules, s.Storable

/-- **One mode.** -/
theorem fromJson_toJson (lib : Json.Library) {m : FocusMode} (h : Storable m) (hid : m.id ≠ []) :
    ∃ o, m.toJson = .object o ∧ fromJson lib o = some m := by
  have happs : (m.allowedApps.map Json.string).filterMap appFromJson = m.allowedApps := by
    rw [List.filterMap_map]
    exact List.filterMap_some
  have hpeople : (m.allowedPeople.map (·.toJson)).filterMap (FocusPerson.fromJson lib) =
      m.allowedPeople := by
    rw [List.filterMap_map]
    exact (List.filterMap_congr fun p _ => p.fromJson_toJson).trans List.filterMap_some
  have hschedules :
      (m.schedules.map (·.toJson)).filterMap (scheduleFromJson lib) = m.schedules := by
    rw [List.filterMap_map]
    exact (List.filterMap_congr fun s hs => FocusSchedule.fromJson_toJson (h.schedules s hs)).trans
      List.filterMap_some
  refine ⟨_, rfl, ?_⟩
  simp (disch := decide) only [fromJson, elements, Json.Library.stringOr, Json.Library.boolOr,
    Json.lookup_cons_of_ne, List.lookup_cons_self, lib.getString_string, lib.getBool_bool,
    lib.getElements_array]
  rw [if_neg hid, happs, hpeople, hschedules]

theorem kept_toJson {m : FocusMode} (h : Storable m) (hid : IsString m.id) :
    Json.Kept m.toJson := by
  have hnames : ∀ name ∈ ["id", "name", "icon", "builtin", "allow-time-sensitive",
      "while-presenting", "while-fullscreen", "apps", "people", "schedules"],
      IsString (ofString name) := by decide +kernel
  have happs : Json.Kept (.array (m.allowedApps.map .string)) :=
    .array (List.forall_mem_map.mpr fun app ha => .string (h.allowedApps app ha))
  have hpeople : Json.Kept (.array (m.allowedPeople.map (·.toJson))) :=
    .array (List.forall_mem_map.mpr fun p hp => FocusPerson.kept_toJson (h.allowedPeople p hp))
  have hschedules : Json.Kept (.array (m.schedules.map (·.toJson))) :=
    .array (List.forall_mem_map.mpr fun s hs => FocusSchedule.kept_toJson (h.schedules s hs))
  refine Json.kept_object ?_ ?_
  · simpa using hnames
  · simpa using ⟨.string hid, .string h.name, .string h.iconName, .bool trivial, .bool trivial,
      .bool trivial, .bool trivial, happs, hpeople, hschedules⟩

end FocusMode

end

/-! ### Identifiers of new modes -/

namespace FocusModeSet

variable {lib : Json.Library} {set : FocusModeSet}

/-- The candidates for an identifier. -/
def candidate (baseId : Text) (k : ℕ) : Text :=
  if k = 0 then baseId else baseId ++ 45 :: decimal (k + 1)

theorem candidate_injective (baseId : Text) : Function.Injective (candidate baseId) := by
  intro j k h
  have hne (n : ℕ) : baseId ≠ baseId ++ 45 :: decimal n := fun h => by
    have := congrArg List.length h
    simp at this
  rw [candidate, candidate] at h
  split_ifs at h with hj hk hk
  · omega
  · exact absurd h (hne _)
  · exact absurd h.symm (hne _)
  · have := decimal_injective (List.cons.inj (List.append_cancel_left h)).2
    omega

/-- The loop ends with a free candidate when there is one within its reach. -/
theorem find_firstFree {baseId : Text} {fuel k : ℕ}
    (h : ∃ j < fuel, (set.find (candidate baseId (k + j))).isNone) :
    ∃ j, set.firstFree baseId fuel (k + 2) (candidate baseId k) = candidate baseId j ∧
      (set.find (candidate baseId j)).isNone := by
  induction fuel generalizing k with
  | zero =>
    obtain ⟨j, hj, -⟩ := h
    omega
  | succ fuel ih =>
    rw [firstFree]
    split
    · next hsome =>
      obtain ⟨j, hj, hnone⟩ := h
      have hnext : baseId ++ 45 :: decimal (k + 2) = candidate baseId (k + 1) := rfl
      rw [hnext]
      refine ih ⟨j - 1, ?_, ?_⟩
      · rcases j with _ | j
        · rw [Nat.add_zero, ← Option.not_isSome, hsome] at hnone
          exact absurd hnone (by decide)
        · omega
      · rcases j with _ | j
        · rw [Nat.add_zero, ← Option.not_isSome, hsome] at hnone
          exact absurd hnone (by decide)
        · rwa [Nat.add_sub_cancel, Nat.add_assoc, Nat.add_comm 1 j]
    · next hnone => exact ⟨k, rfl, by simpa using hnone⟩

/-- One of more candidates than there are modes is free. -/
theorem exists_free (set : FocusModeSet) (baseId : Text) :
    ∃ j < set.modes.length + 1, (set.find (candidate baseId (0 + j))).isNone := by
  by_contra hnot
  push Not at hnot
  have hsub :
      (List.range (set.modes.length + 1)).map (candidate baseId) ⊆ set.modes.map (·.id) := by
    intro id hid
    obtain ⟨j, hj, rfl⟩ := List.mem_map.mp hid
    have hsome := hnot j (List.mem_range.mp hj)
    rw [Nat.zero_add, Ne, find_isNone_iff, not_not] at hsome
    exact hsome
  have hnodup : ((List.range (set.modes.length + 1)).map (candidate baseId)).Nodup :=
    List.nodup_range.map (candidate_injective baseId)
  have hle := (List.subperm_of_subset hnodup hsub).length_le
  simp only [List.length_map, List.length_range] at hle
  omega

/-- **Identifiers of new modes.** -/
theorem find_uniqueId (set : FocusModeSet) (down : Text) :
    (set.find (set.uniqueId down)).isNone := by
  rw [uniqueId]
  obtain ⟨j, heq, hnone⟩ := find_firstFree (exists_free set
    (if slug down ≠ [] then ofString "custom-" ++ slug down else ofString "custom"))
  have hzero (baseId : Text) : candidate baseId 0 = baseId := rfl
  rw [hzero] at heq
  rw [heq]
  exact hnone

theorem mem_slugLoop {slug name : Text} {b : UInt8} (h : b ∈ slugLoop slug name) :
    b ∈ slug ∨ isAlnum b = true ∨ b = 45 := by
  induction name generalizing slug with
  | nil => exact Or.inl h
  | cons c name ih =>
    rw [slugLoop] at h
    split at h
    · next hc =>
      rcases ih h with h | h
      · rcases List.mem_append.mp h with h | h
        · exact Or.inl h
        · rw [List.mem_singleton.mp h]
          exact Or.inr (Or.inl hc)
      · exact Or.inr h
    split at h
    · rcases ih h with h | h
      · rcases List.mem_append.mp h with h | h
        · exact Or.inl h
        · exact Or.inr (Or.inr (List.mem_singleton.mp h))
      · exact Or.inr h
    · exact ih h

theorem ascii_of_isAlnum {b : UInt8} (h : isAlnum b = true) : b ≠ 0 ∧ b < 0x80 := by
  have hletter {low high : UInt8} (hl : low ≤ b ∧ b ≤ high) (h0 : 0 < low.toNat)
      (h80 : high.toNat < 128) : b ≠ 0 ∧ b < 0x80 := by
    have hlow := UInt8.le_iff_toNat_le.mp hl.1
    have hhigh := UInt8.le_iff_toNat_le.mp hl.2
    refine ⟨fun he => ?_, UInt8.lt_iff_toNat_lt.mpr (lt_of_le_of_lt hhigh h80)⟩
    have : b.toNat = 0 := congrArg UInt8.toNat he
    omega
  simp only [isAlnum, Bool.or_eq_true, Bool.and_eq_true, decide_eq_true_eq] at h
  rcases h with (h | h) | h
  · exact ascii_of_isDigit h
  · exact hletter h (by decide) (by decide)
  · exact hletter h (by decide) (by decide)

/-- Identifiers of new modes are strings, and not empty. -/
theorem uniqueId_spec (set : FocusModeSet) (down : Text) :
    IsString (set.uniqueId down) ∧ set.uniqueId down ≠ [] := by
  have hbase : ∀ b ∈ (if slug down ≠ [] then ofString "custom-" ++ slug down else
      ofString "custom"), b ≠ 0 ∧ b < 0x80 := by
    have hslug : ∀ b ∈ slug down, b ≠ 0 ∧ b < 0x80 := by
      intro b hb
      have hstrip : b ∈ strip (slugLoop [] down) := (List.rdropWhile_prefix _ _).mem hb
      have hloop : b ∈ slugLoop [] down :=
        (List.dropWhile_sublist _).mem ((List.rdropWhile_prefix _ _).mem hstrip)
      rcases mem_slugLoop hloop with h | h | rfl
      · cases h
      · exact ascii_of_isAlnum h
      · decide
    have hcustom : ∀ b ∈ ofString "custom-", b ≠ 0 ∧ b < 0x80 := by decide +kernel
    split
    · exact fun b hb => (List.mem_append.mp hb).elim (hcustom b) (hslug b)
    · decide +kernel
  have hne :
      (if slug down ≠ [] then ofString "custom-" ++ slug down else ofString "custom") ≠ [] := by
    split
    · next h => exact List.append_ne_nil_of_right_ne_nil _ h
    · decide
  obtain ⟨j, heq, -⟩ := find_firstFree (exists_free set
    (if slug down ≠ [] then ofString "custom-" ++ slug down else ofString "custom"))
  have huniq : set.uniqueId down = candidate
      (if slug down ≠ [] then ofString "custom-" ++ slug down else ofString "custom") j := heq
  rw [huniq, candidate]
  split
  · exact ⟨isString_of_ascii hbase, hne⟩
  · refine ⟨isString_of_ascii fun b hb => ?_, List.append_ne_nil_of_left_ne_nil hne _⟩
    rcases List.mem_append.mp hb with hb | hb
    · exact hbase b hb
    · rcases List.mem_cons.mp hb with rfl | hb
      · decide
      · exact ascii_of_isDigit (isDigit_of_mem_decimal hb)

/-! ### The file -/

/-- What the modes of a user meet. -/
structure Saved (set : FocusModeSet) : Prop extends WellFormed set where
  strings : ∀ m ∈ set.modes, IsString m.id
  storable : ∀ m ∈ set.modes, m.Storable

theorem kept_toData (h : Saved set) : Json.Kept set.toData := by
  have hnames : ∀ name ∈ ["version", "modes"], IsString (ofString name) := by decide +kernel
  have hone : Json.Kept (.int 1) := .int ⟨by decide, by decide⟩
  have hmodes : Json.Kept (.array (set.modes.map (·.toJson))) :=
    .array (List.forall_mem_map.mpr fun m hm =>
      FocusMode.kept_toJson (h.storable m hm) (h.strings m hm))
  refine Json.kept_object ?_ ?_
  · simpa using hnames
  · simpa using ⟨hone, hmodes⟩

/-- Modes with different identifiers are all taken. -/
theorem foldl_addElement {l new : List FocusMode} (hs : ∀ m ∈ new, m.Storable)
    (hn : ∀ m ∈ new, m.id ≠ []) (hd : ((l ++ new).map (·.id)).Nodup) :
    (new.map (·.toJson)).foldl (addElement lib) ⟨l⟩ = ⟨l ++ new⟩ := by
  induction new generalizing l with
  | nil => simp
  | cons m new ih =>
    obtain ⟨o, ho, hfrom⟩ := FocusMode.fromJson_toJson lib (hs m (by simp)) (hn m (by simp))
    have hfree : (find ⟨l⟩ m.id).isNone := by
      rw [find_isNone_iff]
      intro hmem
      rw [List.map_append, List.map_cons] at hd
      exact (List.nodup_append.mp hd).2.2 m.id hmem m.id List.mem_cons_self rfl
    have hadd : addElement lib ⟨l⟩ m.toJson = ⟨l ++ [m]⟩ := by
      rw [ho, addElement, hfrom]
      exact if_pos hfree
    rw [List.map_cons, List.foldl_cons, hadd, ih (fun x hx => hs x (by simp [hx]))
      (fun x hx => hn x (by simp [hx])) (by simpa using hd), List.append_assoc]
    rfl

/-- **The file of the modes.** It gives back the same modes. -/
theorem fromData_toData (h : Saved set) : fromData lib (lib.reparse set.toData) = set := by
  have hlookup : List.lookup (ofString "modes") [(ofString "version", Json.int 1),
      (ofString "modes", Json.array (set.modes.map (·.toJson)))] =
        some (Json.array (set.modes.map (·.toJson))) := by
    simp (disch := decide) only [Json.lookup_cons_of_ne, List.lookup_cons_self]
  have hfold : (set.modes.map (·.toJson)).foldl (addElement lib) {} = set :=
    foldl_addElement (l := []) h.storable h.named h.ids
  have hdnd : ¬(set.find Focus.doNotDisturb).isNone = true := by
    rw [← Option.not_isSome, h.doNotDisturb]
    decide
  rw [lib.reparse_of_kept _ (kept_toData h), toData, fromData, hlookup]
  dsimp only
  rw [lib.getElements_array, hfold, if_neg hdnd]

/-! ### Changes by the user -/

/-- What a user can do to the modes. All values of a mode but its identifier and whether it is built
in can be set. -/
inductive Edit where
  | add (name iconName : Text)
  | remove (id : Text)
  | set (i : ℕ) (m : FocusMode)

/-- The values are strings, times of the day and days of the week. -/
def Edit.Storable : Edit → Prop
  | .add name iconName => IsString name ∧ IsString iconName
  | .remove _ => True
  | .set _ m => m.Storable

/-- `add_mode`, where `down` is the name in lower case. -/
def addMode (set : FocusModeSet) (down name iconName : Text) : FocusModeSet :=
  ⟨set.modes ++ [{ id := set.uniqueId down, name, iconName }]⟩

/-- `remove_mode` -/
def removeMode (set : FocusModeSet) (id : Text) : FocusModeSet :=
  match set.find id with
  | some m => if m.builtin then set else ⟨set.modes.eraseP (·.id = id)⟩
  | none => set

/-- The values of a mode are set. -/
def setMode (set : FocusModeSet) (i : ℕ) (m : FocusMode) : FocusModeSet :=
  ⟨set.modes.modify i fun old => { m with id := old.id, builtin := old.builtin }⟩

/-- One change, where `down` gives the lower case of a name. -/
def step (down : Text → Text) (set : FocusModeSet) : Edit → FocusModeSet
  | .add name iconName => set.addMode (down name) name iconName
  | .remove id => set.removeMode id
  | .set i m => set.setMode i m

/-- What no setting changes: the identifiers, and which modes are built in. -/
def keys (set : FocusModeSet) : List (Text × Bool) := set.modes.map fun m => (m.id, m.builtin)

/-- What is true after any changes: the mode that replaces a missing one cannot be removed. -/
structure Edited (set : FocusModeSet) : Prop extends Saved set where
  builtin : (Focus.doNotDisturb, true) ∈ set.keys

theorem edited_defaults : Edited defaults where
  toWellFormed := wellFormed_defaults
  strings := by decide +kernel
  storable := by
    have happs : ∀ m ∈ defaults.modes, m.allowedApps = [] ∧ m.allowedPeople = [] := by decide
    have hnames : ∀ m ∈ defaults.modes, IsString m.name ∧ IsString m.iconName := by decide +kernel
    have hschedules : ∀ m ∈ defaults.modes, ∀ s ∈ m.schedules, s.days &&& allDays = s.days ∧
        (0 ≤ s.startMinute ∧ s.startMinute < 1440) ∧ 0 ≤ s.endMinute ∧ s.endMinute < 1440 := by
      decide
    intro m hm
    refine ⟨(hnames m hm).1, (hnames m hm).2, ?_, ?_, fun s hs => ?_⟩
    · simp [(happs m hm).1]
    · simp [(happs m hm).2]
    · obtain ⟨hdays, hstart, hstop⟩ := hschedules m hm s hs
      exact ⟨hdays, hstart, hstop⟩
  builtin := by decide

theorem ids_eq_keys (set : FocusModeSet) : set.modes.map (·.id) = set.keys.map (·.1) := by
  rw [keys, List.map_map]
  rfl

theorem find_doNotDisturb (h : (Focus.doNotDisturb, true) ∈ set.keys) :
    (set.find Focus.doNotDisturb).isSome := by
  rw [find_isSome_iff, ids_eq_keys]
  exact List.mem_map_of_mem h

theorem Edited.addMode (h : Edited set) {down name iconName : Text} (hname : IsString name)
    (hicon : IsString iconName) : Edited (set.addMode down name iconName) := by
  obtain ⟨hstring, hne⟩ := uniqueId_spec set down
  have hbuiltin : (Focus.doNotDisturb, true) ∈ (set.addMode down name iconName).keys := by
    rw [keys, FocusModeSet.addMode, List.map_append]
    exact List.mem_append_left _ h.builtin
  refine ⟨⟨⟨?_, ?_, find_doNotDisturb hbuiltin⟩, ?_, ?_⟩, hbuiltin⟩
  · rw [FocusModeSet.addMode, List.map_append]
    refine (List.perm_append_comm.nodup_iff).mp (List.nodup_cons.mpr ⟨?_, h.ids⟩)
    exact find_isNone_iff.mp (find_uniqueId set down)
  · exact List.forall_mem_append.mpr ⟨h.named, List.forall_mem_singleton.mpr hne⟩
  · exact List.forall_mem_append.mpr ⟨h.strings, List.forall_mem_singleton.mpr hstring⟩
  · refine List.forall_mem_append.mpr ⟨h.storable, List.forall_mem_singleton.mpr ?_⟩
    exact ⟨hname, hicon, by simp, by simp, by simp⟩

theorem Edited.removeMode (h : Edited set) (id : Text) : Edited (set.removeMode id) := by
  rw [FocusModeSet.removeMode]
  split
  · next m hfind =>
    split
    · exact h
    next hm =>
    have hsub : (set.modes.eraseP (·.id = id)).Sublist set.modes := List.eraseP_sublist
    have hid : m.id = id := by simpa using List.find?_some hfind
    have hbuiltin : (Focus.doNotDisturb, true) ∈ keys ⟨set.modes.eraseP (·.id = id)⟩ := by
      obtain ⟨dnd, hdnd, heq⟩ := List.mem_map.mp h.builtin
      refine List.mem_map.mpr ⟨dnd, (List.mem_eraseP_of_neg ?_).mpr hdnd, heq⟩
      -- The mode that is removed is not built in.
      intro hdid
      have hsame : dnd = m := List.inj_on_of_nodup_map h.ids hdnd (List.mem_of_find?_eq_some hfind)
        ((of_decide_eq_true hdid).trans hid.symm)
      exact hm (hsame ▸ congrArg Prod.snd heq)
    exact ⟨⟨⟨h.ids.sublist (hsub.map _), fun x hx => h.named x (hsub.mem hx),
      find_doNotDisturb hbuiltin⟩, fun x hx => h.strings x (hsub.mem hx),
      fun x hx => h.storable x (hsub.mem hx)⟩, hbuiltin⟩
  · exact h

theorem Edited.setMode (h : Edited set) (i : ℕ) {m : FocusMode} (hm : m.Storable) :
    Edited (set.setMode i m) := by
  have hkeys : (set.setMode i m).keys = set.keys :=
    Lists.map_modify_eq
      (f := fun old : FocusMode => { m with id := old.id, builtin := old.builtin })
      (g := fun x : FocusMode => (x.id, x.builtin)) (fun _ => rfl) set.modes i
  have hmem {p : FocusMode → Prop} (hold : ∀ x ∈ set.modes, p x)
      (hnew : ∀ x ∈ set.modes, p { m with id := x.id, builtin := x.builtin }) :
      ∀ x ∈ (set.setMode i m).modes, p x := by
    intro x hx
    rcases Lists.mem_modify hx with hx | ⟨old, hmem, rfl⟩
    · exact hold x hx
    · exact hnew old hmem
  refine ⟨⟨⟨?_, ?_, find_doNotDisturb (hkeys ▸ h.builtin)⟩, ?_, ?_⟩, hkeys ▸ h.builtin⟩
  · rw [ids_eq_keys, hkeys, ← ids_eq_keys]
    exact h.ids
  · exact hmem h.named h.named
  · exact hmem h.strings h.strings
  · exact hmem h.storable fun _ _ => ⟨hm.1, hm.2, hm.3, hm.4, hm.5⟩

theorem Edited.step {down : Text → Text} (h : Edited set) {e : Edit} (he : e.Storable) :
    Edited (set.step down e) := by
  cases e with
  | add name iconName => exact h.addMode he.1 he.2
  | remove id => exact h.removeMode id
  | set i m => exact h.setMode i he

/-! ### The main result -/

/-- **Saved modes**, after any changes by the user: the identifiers are different, there is a mode
that replaces a missing one, and the modes that are read from the file are the same, so that they
are on at the same times and for the same reasons. -/
theorem saved_of_edits (lib : Json.Library) (down : Text → Text) (es : List Edit)
    (hes : Guarded (FocusModeSet.step down) (fun _ e => e.Storable) defaults es) :
    let set := run (FocusModeSet.step down) defaults es
    let read := fromData lib (lib.reparse set.toData)
    (set.modes.map (·.id)).Nodup ∧ (set.find Focus.doNotDisturb).isSome ∧ read.modes = set.modes ∧
      ∀ manualId now presenting fullscreen,
        (read.evaluate manualId now presenting fullscreen).modeId =
            (set.evaluate manualId now presenting fullscreen).modeId ∧
          (read.evaluate manualId now presenting fullscreen).reason =
            (set.evaluate manualId now presenting fullscreen).reason := by
  have h : Edited (run (FocusModeSet.step down) defaults es) :=
    hes.invariant (P := Edited) (fun set e h he => h.step he) edited_defaults
  intro set read
  have hread : read = set := fromData_toData h.toSaved
  rw [hread]
  exact ⟨h.ids, h.doNotDisturb, rfl, fun _ _ _ _ => ⟨rfl, rfl⟩⟩

/-- A mode is added, gets an app and a schedule, and a mode that is built in is not removed. -/
theorem saved_of_edits_add :
    let es : List Edit := [.add (ofString "Gym") (ofString "focus-work-symbolic"),
      .set 4 { id := [], name := ofString "Sport", iconName := ofString "focus-work-symbolic"
               allowedApps := [ofString "dev.sinty.music"],
               schedules := [.new 0x15 1080 1170 true] },
      .remove (ofString "work")]
    let set := run (FocusModeSet.step id) defaults es
    (fromData Json.plainLibrary (Json.plainLibrary.reparse set.toData)).modes = set.modes := by
  intro es
  have hstrings : IsString (ofString "Gym") ∧ IsString (ofString "focus-work-symbolic") ∧
      IsString (ofString "Sport") ∧ IsString (ofString "dev.sinty.music") := by decide +kernel
  obtain ⟨hgym, hicon, hsport, happ⟩ := hstrings
  have hschedule : (FocusSchedule.new 0x15 1080 1170 true).Storable :=
    ⟨by decide, by decide, by decide⟩
  refine (saved_of_edits Json.plainLibrary id es ⟨⟨hgym, hicon⟩, ⟨hsport, hicon, ?_, ?_, ?_⟩,
    trivial, trivial⟩).2.2.1
  · exact List.forall_mem_singleton.mpr happ
  · exact fun p hp => (by cases hp)
  · exact List.forall_mem_singleton.mpr hschedule

end FocusModeSet

end Focus

end SingularityShell
