import SingularityShell.Lib.Throwing
import SingularityShell.Wallpaper.Import

/-!
# Saved wallpapers

What becomes of a wallpaper that is written as a manifest and read again.

## Main definitions

* `Wallpaper.Same` — nothing but the name of the manifest has changed
* `Wallpaper.RoundTrips` — a wallpaper is the same after it is saved and loaded
* `Wallpaper.Storable` — everything in a wallpaper has a notation in a manifest

## Main results

* `Wallpaper.roundTrips_iff` — exactly the storable wallpapers are the same
-/

namespace SingularityShell

namespace Wallpaper

open Ascii Binary64 Machine SingularityShell.Path

variable (lib : Library)

/-! ### Times of the day -/

/-- A part in two digits below its limit. -/
theorem parseParts_two {a b : UInt8} (ha : isDigit a = true) (hb : isDigit b = true)
    {parts : List Text} {limit unit total : ℤ} {units : List (ℤ × ℤ)} {n : ℕ}
    (hn : value [a, b] = n) (hlimit : (n : ℤ) < limit) (hle : limit ≤ 60) (hunit : 0 ≤ unit)
    (hunit' : unit ≤ 3600) (htotal : 0 ≤ total) (htotal' : total ≤ 86400) :
    parseParts ([a, b] :: parts) ((limit, unit) :: units) total =
      parseParts parts units (total + n * unit) := by
  have hdigits : ∀ c ∈ [a, b], isDigit c = true := by simp [ha, hb]
  have hparse : Numeral.atoi [a, b] = n := by
    rw [Numeral.atoi_digits (List.cons_ne_nil _ _) hdigits, hn, Numeral.cut_of_lt (by omega)]
  have hmul : 0 ≤ (n : ℤ) * unit := by positivity
  have hmul' : (n : ℤ) * unit ≤ 60 * 3600 := mul_le_mul (by omega) hunit' hunit (by omega)
  have hall : ¬([a, b] = [] ∨ ¬[a, b].all isDigit = true) := by
    simp [ha, hb]
  rw [parseParts, if_neg hall, hparse, if_neg (by omega), wrap32_eq (x := (n : ℤ) * unit) (by omega)
    (by omega), wrap32_eq (by omega) (by omega)]

/-- The time that is read after a time was written: seconds are not. -/
theorem parseClock_formatClock {t : ℤ} (ht : 0 ≤ t) :
    parseClock (formatClock t) = t % day / 60 * 60 := by
  obtain ⟨s, hs⟩ : ∃ s : ℕ, t % day = s := ⟨(t % day).toNat, by rw [day]; omega⟩
  have hlt : s < 86400 := by
    rw [day] at hs
    omega
  have hmod : ((t.tmod day + day).tmod day).toNat = s := by
    rw [Int.tmod_eq_emod_of_nonneg ht, hs, day, Int.tmod_eq_emod_of_nonneg (by omega)]
    omega
  obtain ⟨a, b, hhours, ha, hb, hh⟩ := padded_two (show s / 3600 < 100 by omega)
  obtain ⟨c, d, hminutes, hc, hd, hm⟩ := padded_two (show s / 60 % 60 < 100 by omega)
  have hcolon {x y : UInt8} (hx : isDigit x = true) (hy : isDigit y = true) : 58 ∉ [x, y] := by
    intro hmem
    simp only [List.mem_cons, List.not_mem_nil, or_false] at hmem
    rcases hmem with rfl | rfl
    · exact absurd hx (by decide)
    · exact absurd hy (by decide)
  have htext : formatClock t = [a, b] ++ 58 :: [c, d] := by
    rw [formatClock, hmod, hhours, hminutes]
  have hstrip : strip ([a, b] ++ 58 :: [c, d]) = [a, b] ++ 58 :: [c, d] :=
    strip_eq_self (List.cons_ne_nil _ _) (isSpace_of_isDigit ha) (isSpace_of_isDigit hd)
  have hsplit : splitColon ([a, b] ++ 58 :: [c, d]) = [[a, b], [c, d]] := by
    rw [splitColon, if_neg (List.append_ne_nil_of_left_ne_nil (List.cons_ne_nil _ _) _),
      List.splitOn_append_cons_self_of_not_mem (hcolon ha hb),
      List.splitOn_eq_singleton (hcolon hc hd)]
  have hcount : ¬([[a, b], [c, d]].length < 2 ∨ [[a, b], [c, d]].length > 3) := by simp
  rw [parseClock, htext, hstrip, hsplit, if_neg hcount,
    parseParts_two ha hb hh (by omega) (by omega) (by omega) (by omega) le_rfl (by omega),
    parseParts_two hc hd hm (by omega) (by omega) (by omega) (by omega) (by omega) (by omega),
    parseParts, hs]
  omega

theorem parseClock_formatClock_eq_iff {t : ℤ} (ht : 0 ≤ t) :
    parseClock (formatClock t) = t ↔ t < day ∧ t % 60 = 0 := by
  rw [parseClock_formatClock ht, day]
  omega

/-! ### Names of images -/

/-- The directory to which `to_json` makes names relative. -/
def savedDir (path : Text) : Text := if path ≠ [] then dirname path else []

/-- A name of an image that is found again: it is not below the directory of the manifest, or that
is not the root and the name is canonical. -/
def NameKept (path name : Text) : Prop :=
  path ≠ [] → (dirname path ++ [47]).isPrefixOf name = true →
    dirname path ≠ [47] ∧ canonicalize name = name

theorem not_uri_of_isAbsolute {name : Text} (h : isAbsolute name = true) :
    (ofString "file://").isPrefixOf name ≠ true := by
  obtain ⟨tail, rfl⟩ := List.head?_eq_some_iff.mp (of_decide_eq_true h)
  exact Bool.false_ne_true

theorem uri_parts {name : Text} (h : (ofString "file://").isPrefixOf name = true) :
    ∃ tail, name = ofString "file:" ++ 47 :: 47 :: tail := by
  obtain ⟨tail, rfl⟩ := List.isPrefixOf_iff_prefix.mp h
  exact ⟨tail, rfl⟩

/-- A name below a directory other than the root. -/
theorem resolve_below {dir rest : Text} (hdir : dir ≠ []) (hlast : dir.getLast? ≠ some 47)
    (habs : isAbsolute (dir ++ 47 :: rest) = true) :
    resolve lib dir rest = dir ++ 47 :: rest ↔
      canonicalize (dir ++ 47 :: rest) = dir ++ 47 :: rest := by
  constructor
  · intro h
    rw [resolve] at h
    split_ifs at h with hnil huri habs'
    · exact absurd h.symm (List.append_ne_nil_of_left_ne_nil hdir _)
    · rcases lib.uriPath_canonical rest with huri | huri
      · rw [h] at huri
        exact absurd huri (List.append_ne_nil_of_left_ne_nil hdir _)
      · rwa [h] at huri
    · have := congrArg List.length h
      rw [List.length_append, List.length_cons] at this
      omega
    · have hhead : rest.head? ≠ some 47 := fun hhead => habs' (decide_eq_true hhead)
      rwa [buildFilename_eq hdir hlast hnil hhead, canonicalizeIn, if_pos habs] at h
  · intro h
    obtain ⟨hne, hhead, hpairs⟩ := canonicalize_below h hdir hlast
    have huri : (ofString "file://").isPrefixOf rest ≠ true := by
      intro huri
      obtain ⟨tail, htail⟩ := uri_parts huri
      exact hpairs _ _ htail rfl
    have habs' : isAbsolute rest ≠ true := fun habs' => hhead (of_decide_eq_true habs')
    rw [resolve, if_neg hne, if_neg huri, if_neg habs', buildFilename_eq hdir hlast hne hhead,
      canonicalizeIn, if_pos habs, h]

/-- A name with two slashes in front is not found again in the root directory. -/
theorem resolve_root_ne (rest : Text) : resolve lib [47] rest ≠ 47 :: 47 :: rest := by
  intro h
  rw [resolve] at h
  split_ifs at h with hnil huri habs
  · obtain ⟨tail, htail⟩ := uri_parts huri
    rcases lib.uriPath_canonical rest with hpath | hpath
    · rw [h] at hpath
      cases hpath
    · rw [h] at hpath
      refine canonicalize_two hpath ?_ hnil htail rfl
      rw [htail]
      exact fun hhead => absurd (Option.some.inj hhead) (by decide)
  · have := congrArg List.length h
    rw [List.length_cons, List.length_cons] at this
    omega
  · have hhead : rest.head? ≠ some 47 := fun hhead => habs (decide_eq_true hhead)
    rw [buildFilename_root hnil hhead, canonicalizeIn,
      if_pos (show isAbsolute (47 :: rest) = true from rfl)] at h
    exact canonicalize_root_ne hnil hhead h

/-- An absolute name after it was made relative and resolved again. -/
theorem resolve_relative_eq_iff (path : Text) {name : Text} (habs : isAbsolute name = true) :
    resolve lib (dirname path) (relative (savedDir path) name) = name ↔ NameKept path name := by
  have hdir := dirname_ne_nil path
  by_cases hunder : path ≠ [] ∧ (dirname path ++ [47]).isPrefixOf name = true
  · obtain ⟨hpath, hprefix⟩ := hunder
    obtain ⟨rest, rfl⟩ := List.isPrefixOf_iff_prefix.mp hprefix
    have hsaved : savedDir path = dirname path := if_pos hpath
    have hrel : relative (dirname path) (dirname path ++ [47] ++ rest) = rest := by
      rw [relative, if_pos ⟨hdir, hprefix⟩]
      exact List.drop_left' (by rw [List.length_append, List.length_singleton])
    rw [hsaved, hrel, NameKept]
    rw [List.append_assoc, List.singleton_append] at habs hprefix ⊢
    by_cases hroot : dirname path = [47]
    · refine iff_of_false ?_ fun h => (h hpath hprefix).1 hroot
      rw [hroot]
      exact resolve_root_ne lib rest
    · rw [resolve_below lib hdir (dirname_getLast hroot) habs]
      exact ⟨fun h _ _ => ⟨hroot, h⟩, fun h => (h hpath hprefix).2⟩
  · have hrel : relative (savedDir path) name = name := by
      refine if_neg fun h => hunder ?_
      by_cases hpath : path = []
      · exact absurd (if_neg (not_not.mpr hpath)) h.1
      · rw [savedDir, if_pos hpath] at h
        exact ⟨hpath, h.2⟩
    have hne : name ≠ [] := by
      rintro rfl
      exact absurd habs (by decide)
    rw [hrel, resolve, if_neg hne, if_neg (not_uri_of_isAbsolute habs), if_pos habs]
    exact iff_of_true rfl fun hpath hprefix => absurd ⟨hpath, hprefix⟩ hunder

/-! ### Members -/

theorem lookup_member (cond : Prop) [Decidable cond] (key : String) (val : Json) :
    (member cond key val).lookup (ofString key) = if cond then some val else none := by
  rw [member]
  split_ifs
  · exact List.lookup_cons_self
  · rfl

theorem lookup_member_of_ne {cond : Prop} [Decidable cond] {key key' : String} {val : Json}
    (h : ofString key' ≠ ofString key) : (member cond key val).lookup (ofString key') = none := by
  rw [member]
  split_ifs
  · rw [List.lookup_cons, beq_eq_false_iff_ne.mpr h]
    rfl
  · rfl

/-! ### Frames -/

/-- Everything in a frame has a notation in a manifest. -/
structure FrameKept (path : Text) (f : Frame) : Prop where
  image : NameKept path f.image
  elevation : f.elevation = .nan ∨ ∃ x : ℚ, f.elevation = .num x ∧ -90 ≤ x ∧ x ≤ 90
  rising : f.elevation = .nan → f.rising = true
  time : f.timeSeconds = -1 ∨ 0 ≤ f.timeSeconds ∧ f.timeSeconds < day ∧ f.timeSeconds % 60 = 0

/-- The elevation that is read again. -/
def rereadElevation (a : Double) : Double := if a.isNan then .nan else a.clamp (-90) 90

theorem rereadElevation_eq_iff {a : Double} :
    rereadElevation a = a ↔ a = .nan ∨ ∃ x : ℚ, a = .num x ∧ -90 ≤ x ∧ x ≤ 90 := by
  cases a with
  | nan => exact iff_of_true rfl (.inl rfl)
  | inf negative =>
    refine iff_of_false (fun h => ?_) ?_
    · cases negative <;> cases h
    · rintro (h | ⟨x, h, -⟩) <;> cases h
  | num x =>
    have hnan : (Double.num x).isNan = false := rfl
    rw [rereadElevation, hnan, if_neg Bool.false_ne_true, Double.clamp, Double.num.injEq]
    constructor
    · intro h
      refine .inr ⟨x, rfl, ?_⟩
      split_ifs at h <;> constructor <;> linarith
    · rintro (h | ⟨y, h, hlow, hhigh⟩)
      · cases h
      · obtain rfl := Double.num.inj h
        rw [if_neg (not_lt.mpr hhigh), if_neg (not_lt.mpr hlow)]

/-- A frame that is written and read again. -/
theorem frameFromJson_frameToJson (dir dir' : Text) (f : Frame) :
    frameFromJson lib dir (frameToJson dir' f) =
      if resolve lib dir (relative dir' f.image) = [] then none
      else some
        { image := resolve lib dir (relative dir' f.image)
          elevation := rereadElevation f.elevation
          rising := f.elevation.isNan || f.rising
          timeSeconds :=
            if f.timeSeconds ≥ 0 then parseClock (formatClock f.timeSeconds) else -1 } := by
  have hsetting : ofString "rising" ≠ ofString "setting" := by decide
  rw [frameToJson, frameFromJson]
  simp (disch := decide) only [stringMember, List.lookup_append, lookup_member, lookup_member_of_ne,
    Option.none_or, Option.or_none, if_pos, lib.getString_string]
  cases hnan : f.elevation.isNan with
  | true =>
    simp only [rereadElevation, hnan, Bool.not_true, Bool.false_eq_true, if_false, if_true,
      Bool.true_or]
    split_ifs <;> simp only [lib.getString_string]
  | false =>
    simp only [rereadElevation, hnan, Bool.not_false, if_true, Bool.false_eq_true, if_false,
      lib.getDouble_double, lib.getString_string, Bool.false_or]
    cases f.rising <;> split_ifs <;> simp_all [lib.getString_string]

theorem rising_eq_iff {a : Double} {rising : Bool} :
    (a.isNan || rising) = rising ↔ (a = .nan → rising = true) := by
  cases a with
  | nan => cases rising <;> simp [Double.isNan]
  | inf => exact iff_of_true rfl nofun
  | num => exact iff_of_true rfl nofun

theorem time_eq_iff {t : ℤ} : (if t ≥ 0 then parseClock (formatClock t) else -1) = t ↔
    t = -1 ∨ 0 ≤ t ∧ t < day ∧ t % 60 = 0 := by
  split_ifs with ht
  · rw [parseClock_formatClock_eq_iff ht]
    omega
  · omega

/-- A frame is the same when it is read again exactly when everything in it has a notation. -/
theorem frame_kept_iff (path : Text) {f : Frame} (habs : isAbsolute f.image = true) :
    frameFromJson lib (dirname path) (frameToJson (savedDir path) f) = some f ↔
      FrameKept path f := by
  have himage := resolve_relative_eq_iff lib path habs
  have hne : f.image ≠ [] := by
    intro hnil
    rw [hnil] at habs
    exact absurd habs (by decide)
  rw [frameFromJson_frameToJson]
  generalize resolve lib (dirname path) (relative (savedDir path) f.image) = image at himage
  obtain ⟨name, elevation, rising, time⟩ := f
  constructor
  · intro h
    have hsome : image ≠ [] := by
      intro hnil
      rw [if_pos hnil] at h
      cases h
    rw [if_neg hsome, Option.some.injEq, Frame.mk.injEq] at h
    exact ⟨himage.mp h.1, rereadElevation_eq_iff.mp h.2.1, rising_eq_iff.mp h.2.2.1,
      time_eq_iff.mp h.2.2.2⟩
  · intro h
    rw [if_neg fun hnil => hne ((himage.mpr h.image).symm.trans hnil), Option.some.injEq,
      Frame.mk.injEq]
    exact ⟨himage.mpr h.image, rereadElevation_eq_iff.mpr h.elevation, rising_eq_iff.mpr h.rising,
      time_eq_iff.mpr h.time⟩

/-- A list is as long as what is left of it only when everything is left. -/
theorem filterMap_eq_self_iff {α : Type} {g : α → Option α} {as : List α} :
    as.filterMap g = as ↔ ∀ a ∈ as, g a = some a := by
  induction as with
  | nil => exact iff_of_true rfl nofun
  | cons a as ih =>
    rw [List.forall_mem_cons, ← ih]
    cases ha : g a with
    | none =>
      rw [List.filterMap_cons_none ha]
      refine iff_of_false (fun h => ?_) nofun
      have hlen := List.length_filterMap_le g as
      rw [h, List.length_cons] at hlen
      omega
    | some b =>
      rw [List.filterMap_cons_some ha, List.cons.injEq, Option.some.injEq]

/-! ### Manifests -/

/-- The members of a manifest. -/
theorem lookup_toJson (w : Wallpaper) :
    (toJson w).lookup (ofString "version") = some (.int 1) ∧
    (toJson w).lookup (ofString "name") = (if w.name ≠ [] then some (.string w.name) else none) ∧
    (toJson w).lookup (ofString "kind") = some (.string w.kind.toToken) ∧
    (toJson w).lookup (ofString "preview") = (if w.preview ≠ [] then
      some (.string (relative (savedDir w.path) w.preview)) else none) ∧
    (toJson w).lookup (ofString "light") = (if w.light ≠ [] then
      some (.string (relative (savedDir w.path) w.light)) else none) ∧
    (toJson w).lookup (ofString "dark") = (if w.dark ≠ [] then
      some (.string (relative (savedDir w.path) w.dark)) else none) ∧
    (toJson w).lookup (ofString "transition") =
      (if w.frames ≠ [] then some (.int w.transition) else none) ∧
    (toJson w).lookup (ofString "frames") = (if w.frames ≠ [] then
      some (.array (w.frames.map (frameToJson (savedDir w.path)))) else none) := by
  refine ⟨?_, ?_, ?_, ?_, ?_, ?_, ?_, ?_⟩ <;>
    simp (disch := decide) only [toJson, List.lookup_append, lookup_member, lookup_member_of_ne,
      Option.none_or, Option.or_none, if_pos] <;> rfl

theorem stringMember_of_lookup {obj : List (Text × Json)} {key : String} {text : Text}
    (h : obj.lookup (ofString key) = some (.string text)) : stringMember lib obj key = text := by
  rw [stringMember, h]
  exact lib.getString_string text

/-- A name that is only written when it is not empty. -/
theorem stringMember_of_ite {obj : List (Text × Json)} {key : String} {text written : Text}
    (h : obj.lookup (ofString key) = if text ≠ [] then some (.string written) else none)
    (hnil : text = [] → written = []) : stringMember lib obj key = written := by
  split_ifs at h with htext
  · exact stringMember_of_lookup lib h
  · rw [stringMember, h, hnil (not_not.mp htext)]

theorem relative_nil (dir : Text) : relative dir [] = [] := by
  cases dir <;> rfl

theorem fromToken_toToken (kind : Kind) : Kind.fromToken kind.toToken = kind := by
  cases kind <;> decide

/-- A wallpaper that is written and read again. -/
theorem readJson_toJson (w : Wallpaper) :
    readJson lib (toJson w) w.path =
      { path := w.path, name := w.name, kind := w.kind
        preview := resolve lib (dirname w.path) (relative (savedDir w.path) w.preview)
        light := resolve lib (dirname w.path) (relative (savedDir w.path) w.light)
        dark := resolve lib (dirname w.path) (relative (savedDir w.path) w.dark)
        transition := if w.frames ≠ [] then clampTransition w.transition else 2700
        frames := w.frames.filterMap fun f =>
          frameFromJson lib (dirname w.path) (frameToJson (savedDir w.path) f) } := by
  obtain ⟨-, hname, hkind, hpreview, hlight, hdark, htransition, hframes⟩ := lookup_toJson w
  have hrel {text : Text} (h : text = []) : relative (savedDir w.path) text = [] := by
    rw [h, relative_nil]
  have htoken : w.kind.toToken ≠ [] := by
    cases w.kind <;> decide
  rw [readJson, stringMember_of_ite lib hname id, stringMember_of_lookup lib hkind,
    stringMember_of_ite lib hpreview hrel, stringMember_of_ite lib hlight hrel,
    stringMember_of_ite lib hdark hrel, htransition, hframes, if_pos htoken, fromToken_toToken]
  cases hw : w.frames with
  | nil => rfl
  | cons f frames =>
    simp only [ne_eq, reduceCtorEq, not_false_eq_true, if_true, lib.getInt_int,
      lib.getElements_array, List.filterMap_map]
    rfl

/-! ### Round trips -/

/-- The two wallpapers differ in nothing but the name of the manifest. -/
structure Same (w w' : Wallpaper) : Prop where
  kind : w'.kind = w.kind
  name : w'.name = w.name
  preview : w'.preview = w.preview
  light : w'.light = w.light
  dark : w'.dark = w.dark
  transition : w'.transition = w.transition
  frames : w'.frames = w.frames

/-- The schedule of a day is made of the kind, the transition and the frames. -/
theorem Same.daySchedule {w w' : Wallpaper} (h : Same w w') (place : Place) :
    w'.daySchedule place = w.daySchedule place := by
  rw [Wallpaper.daySchedule, Wallpaper.daySchedule, timed, timed, assigned, assigned, h.kind,
    h.transition, h.frames]

/-- A wallpaper is the same when it is saved under a name and loaded from it. -/
def RoundTrips (path : Text) (w : Wallpaper) : Prop :=
  ∃ w', fromJson lib (toJson { w with path }) path = .ok w' ∧ Same w w' ∧
    ∀ place, w'.daySchedule place = w.daySchedule place

/-- A wallpaper is read from a manifest or made from the metadata of a picture. -/
inductive Origin (w : Wallpaper) : Prop
  | manifest (obj : List (Text × Json)) (path : Text) (h : fromJson lib obj path = .ok w)
  | metadata (base64 : Text → Plist.Data) (framePaths : List Text) (metadata : Metadata)
    (h : toWallpaper lib base64 framePaths metadata = .ok w)

/-- The names of all images are absolute. -/
structure Absolute (w : Wallpaper) : Prop where
  frames : ∀ f ∈ w.frames, isAbsolute f.image = true
  preview : w.preview = [] ∨ isAbsolute w.preview = true
  light : w.light = [] ∨ isAbsolute w.light = true
  dark : w.dark = [] ∨ isAbsolute w.dark = true

/-- Everything in a wallpaper has a notation in a manifest of a name. -/
structure Storable (path : Text) (w : Wallpaper) : Prop where
  frames : ∀ f ∈ w.frames, FrameKept path f
  preview : NameKept path w.preview
  light : NameKept path w.light
  dark : NameKept path w.dark
  transition : w.frames = [] → w.transition = 2700

/-- What every wallpaper has that is read or made. -/
structure Valid (w : Wallpaper) : Prop where
  images : if w.kind = .appearance then w.light ≠ [] ∨ w.dark ≠ [] else w.frames ≠ []
  transition : 0 ≤ w.transition ∧ w.transition ≤ day / 2

theorem clampTransition_bounds (n : ℤ) :
    0 ≤ clampTransition n ∧ clampTransition n ≤ day / 2 := by
  rw [clampTransition, day]
  split_ifs <;> omega

theorem clampTransition_eq {n : ℤ} (h : 0 ≤ n ∧ n ≤ day / 2) : clampTransition n = n := by
  rw [clampTransition, if_neg (not_lt.mpr h.2), if_neg (not_lt.mpr h.1)]

variable {lib}

/-- What is read passes the check exactly when it has images. -/
theorem fromJson_eq_ok_iff {obj : List (Text × Json)} {path : Text} {w : Wallpaper} :
    fromJson lib obj path = .ok w ↔
      (obj.lookup (ofString "version")).any (lib.getInt · > 1) = false ∧
      w = readJson lib obj path ∧
      if w.kind = .appearance then w.light ≠ [] ∨ w.dark ≠ [] else w.frames ≠ [] := by
  rw [fromJson]
  dsimp only
  generalize readJson lib obj path = wp
  constructor
  · intro h
    split_ifs at h with hold hkind himages hframes
    · obtain rfl := Except.ok.inj h
      rw [if_pos hkind]
      exact ⟨Bool.eq_false_iff.mpr hold, rfl, not_and_or.mp himages⟩
    · obtain rfl := Except.ok.inj h
      rw [if_neg hkind]
      exact ⟨Bool.eq_false_iff.mpr hold, rfl, hframes⟩
  · rintro ⟨hold, rfl, himages⟩
    rw [if_neg (Bool.eq_false_iff.mp hold)]
    split_ifs at himages with hkind
    · rw [if_pos hkind, if_neg (not_and_or.mpr himages)]
    · rw [if_neg hkind, if_neg himages]

theorem valid_of_fromJson {obj : List (Text × Json)} {path : Text} {w : Wallpaper}
    (h : fromJson lib obj path = .ok w) : Valid w := by
  obtain ⟨-, rfl, himages⟩ := fromJson_eq_ok_iff.mp h
  refine ⟨himages, ?_⟩
  rw [readJson]
  dsimp only
  cases obj.lookup (ofString "transition") with
  | none => exact clampTransition_bounds 2700
  | some node => exact clampTransition_bounds _

theorem applyAppearance_transition (framePaths : List Text) (w : Wallpaper)
    (ap : Option Plist.Value) :
    (applyAppearance lib framePaths w ap).transition = w.transition := by
  cases ap <;> rfl

/-- The wallpaper of a picture has the transition of a new wallpaper. -/
theorem readMetadata_transition {base64 : Text → Plist.Data} {framePaths : List Text}
    {metadata : Metadata} {w : Wallpaper}
    (h : readMetadata lib base64 framePaths metadata = .ok w) : w.transition = 2700 := by
  rw [readMetadata] at h
  split_ifs at h
  · obtain ⟨root, -, h⟩ := Throwing.ok_of_bind h
    obtain ⟨list, -, h⟩ := Throwing.ok_of_bind h
    obtain rfl := Except.ok.inj h
    exact applyAppearance_transition _ _ _
  · obtain ⟨root, -, h⟩ := Throwing.ok_of_bind h
    obtain ⟨list, -, h⟩ := Throwing.ok_of_bind h
    obtain rfl := Except.ok.inj h
    exact applyAppearance_transition _ _ _
  · obtain ⟨root, -, h⟩ := Throwing.ok_of_bind h
    obtain rfl := Except.ok.inj h
    exact applyAppearance_transition _ _ _

theorem valid_of_toWallpaper {base64 : Text → Plist.Data} {framePaths : List Text}
    {metadata : Metadata} {w : Wallpaper}
    (h : toWallpaper lib base64 framePaths metadata = .ok w) : Valid w := by
  obtain ⟨wp, hread, h⟩ := Throwing.ok_of_bind h
  have htransition := readMetadata_transition hread
  split_ifs at h with hframes himages
  obtain rfl := Except.ok.inj h
  refine ⟨?_, by rw [htransition, day]; omega⟩
  split_ifs with hkind
  · exact not_and_or.mp fun hboth => himages ⟨hkind, hboth⟩
  · exact fun hnil => hframes ⟨hkind, hnil⟩

theorem Origin.valid {w : Wallpaper} (h : Origin lib w) : Valid w := by
  cases h with
  | manifest obj path h => exact valid_of_fromJson h
  | metadata base64 framePaths metadata h => exact valid_of_toWallpaper h

/-- A name that is empty or absolute, after it was made relative and resolved again. -/
theorem resolve_name_eq_iff (lib : Library) (path : Text) {name : Text}
    (h : name = [] ∨ isAbsolute name = true) :
    resolve lib (dirname path) (relative (savedDir path) name) = name ↔ NameKept path name := by
  rcases h with rfl | h
  · rw [relative_nil]
    refine iff_of_true (if_pos rfl) fun _ hprefix => ?_
    have := List.isPrefixOf_iff_prefix.mp hprefix
    exact absurd (List.prefix_nil.mp this)
      (List.append_ne_nil_of_right_ne_nil _ (List.cons_ne_nil _ _))
  · exact resolve_relative_eq_iff lib path h

/-- The wallpaper that is read again is the same exactly when the original is storable. -/
theorem same_readJson_iff (lib : Library) {w : Wallpaper} (hvalid : Valid w) (habs : Absolute w) :
    Same w (readJson lib (toJson w) w.path) ↔ Storable w.path w := by
  have hframes : (w.frames.filterMap fun f =>
      frameFromJson lib (dirname w.path) (frameToJson (savedDir w.path) f)) = w.frames ↔
        ∀ f ∈ w.frames, FrameKept w.path f := by
    rw [filterMap_eq_self_iff]
    exact forall₂_congr fun f hf => frame_kept_iff lib w.path (habs.frames f hf)
  have hpreview := resolve_name_eq_iff lib w.path habs.preview
  have hlight := resolve_name_eq_iff lib w.path habs.light
  have hdark := resolve_name_eq_iff lib w.path habs.dark
  have htransition : (if w.frames ≠ [] then clampTransition w.transition else 2700) = w.transition ↔
      (w.frames = [] → w.transition = 2700) := by
    rw [clampTransition_eq hvalid.transition]
    split_ifs with hne
    · exact iff_of_true rfl fun hnil => absurd hnil hne
    · exact ⟨fun h _ => h.symm, fun h => (h (not_not.mp hne)).symm⟩
  rw [readJson_toJson]
  constructor
  · intro h
    exact ⟨hframes.mp h.frames, hpreview.mp h.preview, hlight.mp h.light, hdark.mp h.dark,
      htransition.mp h.transition⟩
  · intro h
    exact ⟨rfl, rfl, hpreview.mpr h.preview, hlight.mpr h.light, hdark.mpr h.dark,
      htransition.mpr h.transition, hframes.mpr h.frames⟩

/-- **When a wallpaper survives a manifest**: exactly when everything in it has a notation there. -/
theorem roundTrips_iff (lib : Library) (path : Text) {w : Wallpaper} (horigin : Origin lib w)
    (habs : Absolute w) : RoundTrips lib path w ↔ Storable path w := by
  have hvalid := horigin.valid
  have hstorable : Same w (readJson lib (toJson { w with path }) path) ↔ Storable path w := by
    have h := same_readJson_iff lib (w := { w with path }) ⟨hvalid.images, hvalid.transition⟩
      ⟨habs.frames, habs.preview, habs.light, habs.dark⟩
    constructor
    · intro hsame
      obtain ⟨h1, h2, h3, h4, h5⟩ := h.mp ⟨hsame.kind, hsame.name, hsame.preview, hsame.light,
        hsame.dark, hsame.transition, hsame.frames⟩
      exact ⟨h1, h2, h3, h4, h5⟩
    · intro hst
      obtain ⟨h1, h2, h3, h4, h5, h6, h7⟩ := h.mpr ⟨hst.frames, hst.preview, hst.light, hst.dark,
        hst.transition⟩
      exact ⟨h1, h2, h3, h4, h5, h6, h7⟩
  rw [← hstorable]
  constructor
  · rintro ⟨w', hw', hsame, -⟩
    obtain ⟨-, rfl, -⟩ := fromJson_eq_ok_iff.mp hw'
    exact hsame
  · intro hsame
    refine ⟨_, fromJson_eq_ok_iff.mpr ⟨?_, rfl, ?_⟩, hsame, hsame.daySchedule⟩
    · rw [(lookup_toJson _).1]
      exact decide_eq_false (by rw [lib.getInt_int]; omega)
    · rw [hsame.kind, hsame.light, hsame.dark, hsame.frames]
      exact hvalid.images

/-! ### A wallpaper with seconds -/

/-- Libraries that have a default for nodes of another type, and no place for URIs. -/
noncomputable def plainLibrary : Library where
  getString := Json.plainLibrary.getString
  getInt := Json.plainLibrary.getInt
  getDouble | .double x => x | .int n => .num (fl n) | _ => .num 0
  getElements := Json.plainLibrary.getElements
  uriPath _ := []
  cwd := [47]
  undefined width _ := -2 ^ (width - 1)
  getString_string := Json.plainLibrary.getString_string
  getInt_int := Json.plainLibrary.getInt_int
  getDouble_double _ := rfl
  getElements_array := Json.plainLibrary.getElements_array
  uriPath_canonical _ := .inl rfl

/-- A manifest with a frame at 07:12:30. -/
def secondsManifest : List (Text × Json) :=
  [(ofString "frames", .array [.object [(ofString "image", .string (ofString "/a.png")),
    (ofString "time", .string (ofString "07:12:30"))]])]

def secondsWallpaper : Wallpaper :=
  { path := ofString "/w", frames := [{ image := ofString "/a.png", timeSeconds := 25950 }] }

theorem origin_secondsWallpaper : Origin plainLibrary secondsWallpaper :=
  .manifest secondsManifest (ofString "/w") (by decide +kernel)

theorem absolute_secondsWallpaper : Absolute secondsWallpaper where
  frames f hf := by
    rw [List.mem_singleton.mp hf]
    rfl
  preview := .inl rfl
  light := .inl rfl
  dark := .inl rfl

theorem roundTrips_iff_seconds : RoundTrips plainLibrary (ofString "/w") secondsWallpaper ↔
    Storable (ofString "/w") secondsWallpaper :=
  roundTrips_iff plainLibrary _ origin_secondsWallpaper absolute_secondsWallpaper

theorem not_roundTrips : ¬∀ lib path w, Origin lib w → w.kind ≠ .cycle → Absolute w →
    RoundTrips lib path w := by
  intro h
  obtain ⟨w', hw', hsame, -⟩ := h plainLibrary (ofString "/w") secondsWallpaper
    origin_secondsWallpaper (by decide) absolute_secondsWallpaper
  have hread : fromJson plainLibrary (toJson secondsWallpaper) (ofString "/w") =
      .ok { secondsWallpaper with
        frames := [{ image := ofString "/a.png", timeSeconds := 25920 }] } := by
    decide +kernel
  obtain rfl := Except.ok.inj (hread.symm.trans hw')
  exact absurd hsame.frames (by decide)

end Wallpaper

end SingularityShell
