import Mathlib.Data.Finset.Union
import Mathlib.Data.Fintype.EquivFin
import SingularityShell.Lib.Json
import SingularityShell.Lib.Path
import SingularityShell.Lib.Throwing
import SingularityShell.Lib.Transition

/-!
# Imported wallpapers

An import is over when the helper has answered and the files that the answer names are there. After
a restart the files themselves are searched for what was imported. The search asks for more than the
end of an import does: for the origin of a picture, and for the form of its id.

The files and the registry are those of the moment, and the helpers that read JSON are given.

## Main definitions

* `Wallpaper.OcsImports.complete`, `discover` — the end of an import, and the search
* `Wallpaper.OcsImports.Makes` — a sidecar beside an image, and the key that it makes
* `Wallpaper.OcsImports.Admitted` — what the search asks for besides
* `Wallpaper.OcsImports.OneActive` — how many imports there are at a time

## Main results

* `Wallpaper.OcsImports.complete_ok` — what a completed import has left
* `Wallpaper.OcsImports.mem_discover_iff` — what the search finds
* `Wallpaper.OcsImports.completing_and_discovering` — when the two agree, and when imports follow
  one another -/

namespace SingularityShell

namespace Wallpaper

namespace OcsImports

open Ascii Throwing

/-! ### What is given -/

/-- `WallpaperOcs`: its functions return the members of the parsed object or throw. A text that is
optional may be empty instead. -/
structure Helpers (Object Node : Type) where
  document : Text → Except String Object
  text : Object → Text → Except String Text
  optionalText : Object → Text → Except String Text
  member : Object → Text → Node
  objectNode : Node → Except String Object
  array : Object → Text → Except String (List Node)
  providerId : Text → Bool
  numericId : Text → Bool
  optional_of_text : ∀ o name t, text o name = .ok t → optionalText o name = .ok t
  text_of_optional : ∀ o name t, optionalText o name = .ok t → t ≠ [] → text o name = .ok t

/-- The files: the tests of a path, the text of a file, and the names in a directory that can be
read. -/
structure Files where
  isDir : Text → Bool
  isRegular : Text → Bool
  contents : Text → Except String Text
  names : Text → List Text

/-- A collection of the registry. -/
structure Collection where
  id : Text
  dir : Text
  deriving DecidableEq

/-! ### The search -/

variable {Object Node : Type} (h : Helpers Object Node) (f : Files)

def isXDigit (b : UInt8) : Bool := isDigit b || (65 ≤ b && b ≤ 70) || (97 ≤ b && b ≤ 102)

/-- `Uuid.string_is_valid` -/
def uuidValid (id : Text) : Bool :=
  id.length = 36 && id.zipIdx.all fun c =>
    if c.2 = 8 ∨ c.2 = 13 ∨ c.2 = 18 ∨ c.2 = 23 then c.1 = 45 else isXDigit c.1

/-- The characters of the regular expression, and the length. -/
def unsplashValid (id : Text) : Bool :=
  id ≠ [] && id.length ≤ 64 && id.all fun b =>
    isDigit b || (65 ≤ b && b ≤ 90) || (97 ≤ b && b ≤ 122) || b = 95 || b = 45

def key (provider id : Text) : Text := provider ++ 58 :: id

def extensions : List Text := [ofString ".jpg", ofString ".png", ofString ".webp"]

/-- The key of a sidecar, if it counts as an import. -/
def sidecarKey (doc : Object) : Except String (Option Text) := do
  if (← h.optionalText doc (ofString "provider")) = ofString "openverse" then
    let identity ← h.text doc (ofString "id")
    if uuidValid identity then return some (key (ofString "openverse") identity)
    return none
  if (← h.optionalText doc (ofString "provider")) = ofString "unsplash" then
    let identity ← h.text doc (ofString "id")
    if unsplashValid identity then return some (key (ofString "unsplash") identity)
    return none
  if (← h.text doc (ofString "origin")) ≠ ofString "ocs" then return none
  let provider ← h.text doc (ofString "provider")
  let id ← h.text (← h.objectNode (h.member doc (ofString "source"))) (ofString "ocs_id")
  if !h.providerId provider || !h.numericId id then return none
  return some (key provider id)

/-- `sidecar_keys`. A directory that cannot be read has no names. -/
def sidecarKeys (dir : Text) : List Text :=
  if f.isDir dir then
    (f.names dir).filterMap fun name =>
      if (ofString ".json").isSuffixOf name ∧ f.isRegular (Path.buildFilename dir name) ∧
          ∃ extension ∈ extensions, f.isRegular
            (Path.buildFilename dir (name.take (name.length - 5) ++ extension)) then
        match f.contents (Path.buildFilename dir name) >>= h.document >>= sidecarKey h with
        | .ok key => key
        | .error _ => none
      else none
  else []

/-- The loop of `legacy_pack_key`: whether one of the images is there. -/
def legacyImages (dir : Text) : List Node → Except String Bool
  | [] => return false
  | node :: nodes => do
    let name ← h.text (← h.objectNode node) (ofString "file")
    if name = Path.basename name ∧ (ofString ".jpg").isSuffixOf name ∧
        f.isRegular (Path.buildFilename dir name) then
      return true
    legacyImages dir nodes

def legacyPackData (dir : Text) : Except String Text := do
  let doc ← h.document (← f.contents (Path.buildFilename dir (ofString "pack.json")))
  if (← h.text doc (ofString "origin")) ≠ ofString "ocs" then return []
  let provider ← h.text doc (ofString "provider")
  let id ← h.text (← h.objectNode (h.member doc (ofString "source"))) (ofString "ocs_id")
  if !h.providerId provider || !h.numericId id then return []
  if ← legacyImages h f dir (← h.array doc (ofString "images")) then return key provider id
  return []

/-- `legacy_pack_key` -/
def legacyPackKey (dir : Text) : Text :=
  if f.isRegular (Path.buildFilename dir (ofString "pack.json")) then
    match legacyPackData h f dir with
    | .ok key => key
    | .error _ => []
  else []

/-! ### Imports -/

structure Imports where
  active : Text := []
  added : Finset Text := ∅

def Imports.busy (s : Imports) : Bool := s.active ≠ []

/-- `begin`, which returns whether it succeeds. -/
def begins (key : Text) (s : Imports) : Bool × Imports :=
  if s.busy ∨ key ∈ s.added then (false, s) else (true, { s with active := key })

def fail (key : Text) (s : Imports) : Imports :=
  if s.active = key then { s with active := [] } else s

def isAdded (key : Text) (s : Imports) : Prop := key ∈ s.added

/-- The keys that a search finds in a collection. -/
def found (collection : Collection) : Finset Text :=
  let legacy := legacyPackKey h f collection.dir
  (sidecarKeys h f collection.dir).toFinset ∪ if legacy ≠ [] then {legacy} else ∅

def discover (collections : List Collection) (s : Imports) : Imports :=
  { s with added := collections.toFinset.biUnion (found h f) }

/-- The name without its last extension. -/
def stem (name : Text) : Text := (name.rdropWhile (· ≠ 46)).dropLast

/-- The provider and the id that `complete` reads in a sidecar. -/
def provenance (doc : Object) : Except String (Text × Text) := do
  let provider ← h.text doc (ofString "provider")
  if provider = ofString "openverse" ∨ provider = ofString "unsplash" then
    return (provider, ← h.text doc (ofString "id"))
  return (provider,
    ← h.text (← h.objectNode (h.member doc (ofString "source"))) (ofString "ocs_id"))

/-- The loop of `complete` over the images of the answer. -/
def completeImages (dir active : Text) : List Node → Bool → Except String Bool
  | [], foundKey => return foundKey
  | node :: nodes, foundKey => do
    let image ← h.objectNode node
    let name ← h.text image (ofString "file")
    let sidecar ← h.text image (ofString "sidecar")
    throwIf (name ≠ Path.basename name ∨ ¬(∃ extension ∈ extensions, extension.isSuffixOf name) ∨
      !f.isRegular (Path.buildFilename dir name)) "Imported image is missing"
    throwIf (sidecar ≠ Path.basename sidecar ∨ !(ofString ".json").isSuffixOf sidecar)
      "Imported image sidecar path is malformed"
    throwIf (sidecar ≠ stem name ++ ofString ".json")
      "Imported image sidecar does not pair with image"
    throwIf (!f.isRegular (Path.buildFilename dir sidecar)) "Imported image sidecar is missing"
    let doc ← h.document (← f.contents (Path.buildFilename dir sidecar))
    let (provider, id) ← provenance h doc
    completeImages dir active nodes (foundKey || key provider id = active)

/-- The ids of collections that are shared by imports. A key without characters has no first
part. -/
def sharedIds (key : Text) : List Text :=
  [ofString "imported-ocs", ofString "ocs"] ++ if key = [] then [] else [key.takeWhile (· ≠ 58)]

/-- `complete`. The state is changed after the last check. -/
def complete (key data : Text) (collections : List Collection) (s : Imports) :
    Except String Imports := do
  throwIf (s.active ≠ key) "No matching import is active"
  let obj ← h.document data
  let id ← h.text obj (ofString "pack_id")
  let dir ← h.text obj (ofString "destination")
  let collectionPath ← h.text obj (ofString "collection")
  throwIf (!Path.isAbsolute dir || !f.isDir dir || !f.isRegular collectionPath)
    "Import did not produce registered collection files"
  throwIf ((⟨id, dir⟩ : Collection) ∉ collections)
    "Imported pack is missing from the collection registry"
  if id ∉ sharedIds key then
    throwIf (legacyPackKey h f dir ≠ key)
      "Legacy imported pack provenance does not match the active import key"
    return { active := [], added := insert key s.added }
  let images ← h.array obj (ofString "images")
  throwIf (images.length = 0) "Imported pack contains no images"
  let foundKey ← completeImages h f dir key images false
  throwIf (!foundKey) "No imported image sidecar matches the active import key"
  return { active := [], added := insert key s.added }

/-! ### What the search asks for -/

/-- A sidecar beside an image, and the key that its provider and its id make. -/
def Makes (dir name : Text) (doc : Object) (k : Text) : Prop :=
  (ofString ".json").isSuffixOf name ∧ f.isRegular (Path.buildFilename dir name) ∧
    (∃ extension ∈ extensions, f.isRegular
      (Path.buildFilename dir (name.take (name.length - 5) ++ extension))) ∧
    f.contents (Path.buildFilename dir name) >>= h.document = .ok doc ∧
    ∃ provider id, provenance h doc = .ok (provider, id) ∧ k = key provider id

/-- The id has the form that the search asks of the provider, and the origin is the one. -/
def Passes (doc : Object) (provider id : Text) : Prop :=
  if provider = ofString "openverse" then uuidValid id = true
  else if provider = ofString "unsplash" then unsplashValid id = true
  else h.text doc (ofString "origin") = .ok (ofString "ocs") ∧ h.providerId provider ∧
    h.numericId id

/-- What the search asks for besides: the sidecar is found, and passes. -/
def Admitted (dir name : Text) (doc : Object) : Prop :=
  f.isDir dir ∧ name ∈ f.names dir ∧
    ∃ provider id, provenance h doc = .ok (provider, id) ∧ Passes h doc provider id

variable {h f}

theorem provenance_eq_ok_iff {doc : Object} {provider id : Text} :
    provenance h doc = .ok (provider, id) ↔ h.text doc (ofString "provider") = .ok provider ∧
      if provider = ofString "openverse" ∨ provider = ofString "unsplash" then
        h.text doc (ofString "id") = .ok id
      else ∃ source, h.objectNode (h.member doc (ofString "source")) = .ok source ∧
        h.text source (ofString "ocs_id") = .ok id := by
  constructor
  · intro hprovenance
    rw [provenance] at hprovenance
    obtain ⟨provider', hprovider, hrest⟩ := ok_of_bind hprovenance
    split_ifs at hrest with hid
    · obtain ⟨id', htext, hpair⟩ := ok_of_bind hrest
      obtain ⟨rfl, rfl⟩ := Prod.mk.inj (Except.ok.inj hpair)
      exact ⟨hprovider, by rwa [if_pos hid]⟩
    · obtain ⟨source, hsource, hrest⟩ := ok_of_bind hrest
      obtain ⟨id', htext, hpair⟩ := ok_of_bind hrest
      obtain ⟨rfl, rfl⟩ := Prod.mk.inj (Except.ok.inj hpair)
      exact ⟨hprovider, by rw [if_neg hid]; exact ⟨source, hsource, htext⟩⟩
  · rintro ⟨hprovider, hid⟩
    rw [provenance, bind_of_ok hprovider]
    split_ifs at hid ⊢
    · rw [bind_of_ok hid]
      rfl
    · obtain ⟨source, hsource, htext⟩ := hid
      rw [bind_of_ok hsource, bind_of_ok htext]
      rfl

/-- The optional text is the text, where one that is not empty is asked for. -/
theorem optionalText_eq_iff {doc : Object} {name t provider : Text} (ht : t ≠ [])
    (hprovider : h.optionalText doc name = .ok provider) :
    provider = t ↔ h.text doc name = .ok t := by
  constructor
  · rintro rfl
    exact h.text_of_optional doc name _ hprovider ht
  · intro htext
    exact Except.ok.inj (hprovider.symm.trans (h.optional_of_text doc name t htext))

/-- The key that the search finds is the one that `complete` makes, where the sidecar passes. -/
theorem sidecarKey_eq_some_iff {doc : Object} {k : Text} :
    sidecarKey h doc = .ok (some k) ↔ ∃ provider id, provenance h doc = .ok (provider, id) ∧
      Passes h doc provider id ∧ k = key provider id := by
  have hopenverse : ofString "openverse" ≠ [] := by decide
  have hunsplash : ofString "unsplash" ≠ [] := by decide
  constructor
  · intro hkey
    rw [sidecarKey] at hkey
    obtain ⟨optional, hoptional, hkey⟩ := ok_of_bind hkey
    split_ifs at hkey with ho
    · obtain ⟨identity, hidentity, hkey⟩ := ok_of_bind hkey
      split_ifs at hkey with hvalid
      · obtain rfl := Option.some.inj (Except.ok.inj hkey)
        refine ⟨ofString "openverse", identity, provenance_eq_ok_iff.2 ⟨?_, ?_⟩, ?_, rfl⟩
        · exact (optionalText_eq_iff hopenverse hoptional).1 ho
        · rwa [if_pos (Or.inl rfl)]
        · rwa [Passes, if_pos rfl]
      · cases hkey
    · rw [bind_of_ok hoptional] at hkey
      split_ifs at hkey with hu
      · obtain ⟨identity, hidentity, hkey⟩ := ok_of_bind hkey
        split_ifs at hkey with hvalid
        · obtain rfl := Option.some.inj (Except.ok.inj hkey)
          refine ⟨ofString "unsplash", identity, provenance_eq_ok_iff.2 ⟨?_, ?_⟩, ?_, rfl⟩
          · exact (optionalText_eq_iff hunsplash hoptional).1 hu
          · rwa [if_pos (Or.inr rfl)]
          · rwa [Passes, if_neg (by decide), if_pos rfl]
        · cases hkey
      · obtain ⟨origin, horigin, hkey⟩ := ok_of_bind hkey
        split_ifs at hkey with hocs
        · cases hkey
        obtain ⟨provider, hprovider, hkey⟩ := ok_of_bind hkey
        obtain ⟨source, hsource, hkey⟩ := ok_of_bind hkey
        obtain ⟨id, hid, hkey⟩ := ok_of_bind hkey
        split_ifs at hkey with hform
        · cases hkey
        obtain rfl := Option.some.inj (Except.ok.inj hkey)
        have hno : ¬provider = ofString "openverse" := fun heq =>
          ho ((optionalText_eq_iff hopenverse hoptional).2 (hprovider.trans (congrArg _ heq)))
        have hnu : ¬provider = ofString "unsplash" := fun heq =>
          hu ((optionalText_eq_iff hunsplash hoptional).2 (hprovider.trans (congrArg _ heq)))
        refine ⟨provider, id, provenance_eq_ok_iff.2 ⟨hprovider, ?_⟩, ?_, rfl⟩
        · rw [if_neg (not_or.2 ⟨hno, hnu⟩)]
          exact ⟨source, hsource, hid⟩
        · rw [Passes, if_neg hno, if_neg hnu]
          rw [not_not.1 hocs] at horigin
          simpa [horigin] using hform
  · rintro ⟨provider, id, hprovenance, hpasses, rfl⟩
    obtain ⟨hprovider, hid⟩ := provenance_eq_ok_iff.1 hprovenance
    have hoptional := h.optional_of_text doc _ _ hprovider
    rw [sidecarKey, bind_of_ok hoptional]
    rw [Passes] at hpasses
    split_ifs at hpasses with ho hu
    · subst ho
      rw [if_pos (Or.inl rfl)] at hid
      rw [if_pos rfl, bind_of_ok hid, if_pos hpasses]
      rfl
    · subst hu
      rw [if_pos (Or.inr rfl)] at hid
      rw [if_neg ho, bind_of_ok hoptional, if_pos rfl, bind_of_ok hid,
        if_pos hpasses]
      rfl
    · obtain ⟨horigin, hp, hn⟩ := hpasses
      rw [if_neg (not_or.2 ⟨ho, hu⟩)] at hid
      obtain ⟨source, hsource, hid⟩ := hid
      rw [if_neg ho, bind_of_ok hoptional, if_neg hu, bind_of_ok horigin,
        if_neg (not_not.2 rfl), bind_of_ok hprovider, bind_of_ok hsource,
        bind_of_ok hid, if_neg (by simp [hp, hn])]
      rfl

theorem mem_sidecarKeys {dir k : Text} :
    k ∈ sidecarKeys h f dir ↔ ∃ name doc, Makes h f dir name doc k ∧ Admitted h f dir name doc := by
  rw [sidecarKeys]
  split_ifs with hdir
  · rw [List.mem_filterMap]
    constructor
    · rintro ⟨name, hname, hkey⟩
      split_ifs at hkey with hfiles
      split at hkey
      next key hok =>
        subst hkey
        obtain ⟨doc, hdoc, hok⟩ := ok_of_bind hok
        obtain ⟨provider, id, hprovenance, hpasses, hk⟩ := sidecarKey_eq_some_iff.1 hok
        exact ⟨name, doc, ⟨hfiles.1, hfiles.2.1, hfiles.2.2, hdoc, provider, id, hprovenance, hk⟩,
          hdir, hname, provider, id, hprovenance, hpasses⟩
      next => cases hkey
    · rintro ⟨name, doc, ⟨hjson, hregular, himage, hdoc, provider, id, hprovenance, hk⟩, -, hname,
        provider', id', hprovenance', hpasses⟩
      obtain ⟨rfl, rfl⟩ := Prod.mk.inj (Except.ok.inj (hprovenance.symm.trans hprovenance'))
      refine ⟨name, hname, ?_⟩
      rw [if_pos ⟨hjson, hregular, himage⟩, bind_of_ok hdoc,
        sidecarKey_eq_some_iff.2 ⟨provider, id, hprovenance, hpasses, hk⟩]
  · refine iff_of_false List.not_mem_nil ?_
    rintro ⟨name, doc, -, hdir', -⟩
    exact hdir hdir'

theorem Makes.ne_nil {dir name k : Text} {doc : Object} (hmakes : Makes h f dir name doc k) :
    k ≠ [] := by
  obtain ⟨-, -, -, -, provider, id, -, rfl⟩ := hmakes
  exact List.append_ne_nil_of_right_ne_nil _ (List.cons_ne_nil _ _)

/-- **What the search finds**: the old packs, and the sidecars beside images that pass. -/
theorem mem_discover_iff {collections : List Collection} {s : Imports} {k : Text} :
    isAdded k (discover h f collections s) ↔ k ≠ [] ∧ ∃ c ∈ collections,
      legacyPackKey h f c.dir = k ∨
        ∃ name doc, Makes h f c.dir name doc k ∧ Admitted h f c.dir name doc := by
  rw [isAdded, discover, Finset.mem_biUnion, ← exists_and_left]
  refine exists_congr fun c => ?_
  rw [List.mem_toFinset, found, Finset.mem_union, List.mem_toFinset, mem_sidecarKeys,
    and_left_comm]
  refine and_congr_right fun _ => ?_
  rw [and_or_left, or_comm]
  refine or_congr ?_ ?_
  · split_ifs with hlegacy
    · rw [Finset.mem_singleton]
      exact ⟨fun hk => ⟨hk ▸ hlegacy, hk.symm⟩, fun hk => hk.2.symm⟩
    · rw [not_not.1 hlegacy]
      exact iff_of_false (Finset.notMem_empty k) fun hk => hk.1 hk.2.symm
  · exact ⟨fun ⟨name, doc, hmakes, hadmitted⟩ => ⟨hmakes.ne_nil, name, doc, hmakes, hadmitted⟩,
      And.right⟩

/-! ### What a completed import has left -/

/-- The name of an image, without its extension. -/
theorem stem_append {extension : Text} (h : extension ∈ extensions) (name : Text) :
    stem (name ++ extension) = name := by
  rw [extensions, List.mem_cons, List.mem_cons, List.mem_singleton] at h
  rcases h with rfl | rfl | rfl <;> simp [stem, List.rdropWhile, ofString]

/-- Where the key is found among the images of the answer, there is a sidecar that makes it. -/
theorem completeImages_ok {dir active : Text} {nodes : List Node} {foundKey : Bool}
    (hok : completeImages h f dir active nodes foundKey = .ok true) :
    foundKey = true ∨ ∃ name doc, Makes h f dir name doc active := by
  induction nodes generalizing foundKey with
  | nil => exact Or.inl (Except.ok.inj hok)
  | cons node nodes ih =>
    rw [completeImages] at hok
    obtain ⟨image, -, hok⟩ := ok_of_bind hok
    obtain ⟨name, -, hok⟩ := ok_of_bind hok
    obtain ⟨sidecar, -, hok⟩ := ok_of_bind hok
    obtain ⟨_, himage, hok⟩ := ok_of_bind hok
    obtain ⟨_, hpath, hok⟩ := ok_of_bind hok
    obtain ⟨_, hpair, hok⟩ := ok_of_bind hok
    obtain ⟨_, hregular, hok⟩ := ok_of_bind hok
    obtain ⟨data, hdata, hok⟩ := ok_of_bind hok
    obtain ⟨doc, hdoc, hok⟩ := ok_of_bind hok
    obtain ⟨⟨provider, id⟩, hprovenance, hok⟩ := ok_of_bind hok
    rcases ih hok with hfound | hmakes
    · rcases Bool.or_eq_true_iff.1 hfound with hfound | hkey
      · exact Or.inl hfound
      obtain ⟨-, hext, himage⟩ := not_or.1 (not_of_throwIf himage) |>.imp_right not_or.1
      obtain ⟨extension, hextension, hsuffix⟩ := not_not.1 hext
      obtain ⟨base, rfl⟩ := List.isSuffixOf_iff_suffix.1 hsuffix
      obtain rfl : sidecar = base ++ ofString ".json" := by
        rw [← stem_append hextension base]
        exact not_not.1 (not_of_throwIf hpair)
      refine Or.inr ⟨base ++ ofString ".json", doc, ?_, ?_, ⟨extension, hextension, ?_⟩, ?_,
        provider, id, hprovenance, (of_decide_eq_true hkey).symm⟩
      · exact List.isSuffixOf_iff_suffix.2 (List.suffix_append _ _)
      · simpa using not_of_throwIf hregular
      · have htake : (base ++ ofString ".json").take ((base ++ ofString ".json").length - 5) =
            base := by
          simp [ofString]
        rw [htake]
        simpa using himage
      · rw [bind_of_ok hdata, hdoc]
    · exact Or.inr hmakes

/-- **What a completed import has left**: a registered pack of the old format that makes the key, or
a sidecar in a registered collection that does. -/
theorem complete_ok {k data : Text} {collections : List Collection} {s s' : Imports}
    (hok : complete h f k data collections s = .ok s') :
    s.active = k ∧ s' = { active := [], added := insert k s.added } ∧
      ∃ c ∈ collections, f.isDir c.dir ∧
        (legacyPackKey h f c.dir = k ∨ ∃ name doc, Makes h f c.dir name doc k) := by
  rw [complete] at hok
  obtain ⟨_, hactive, hok⟩ := ok_of_bind hok
  obtain ⟨obj, -, hok⟩ := ok_of_bind hok
  obtain ⟨id, -, hok⟩ := ok_of_bind hok
  obtain ⟨dir, -, hok⟩ := ok_of_bind hok
  obtain ⟨collectionPath, -, hok⟩ := ok_of_bind hok
  obtain ⟨_, hfiles, hok⟩ := ok_of_bind hok
  obtain ⟨_, hregistered, hok⟩ := ok_of_bind hok
  have hactive := not_not.1 (not_of_throwIf hactive)
  have hregistered := not_not.1 (not_of_throwIf hregistered)
  have hdir : f.isDir dir = true := by
    have := not_of_throwIf hfiles
    simp only [Bool.or_eq_true, not_or, Bool.not_eq_true', Bool.not_eq_false] at this
    exact this.1.2
  refine ⟨hactive, ?_⟩
  split_ifs at hok with hid
  · obtain ⟨images, -, hok⟩ := ok_of_bind hok
    obtain ⟨_, -, hok⟩ := ok_of_bind hok
    obtain ⟨foundKey, himages, hok⟩ := ok_of_bind hok
    obtain ⟨_, hfound, hok⟩ := ok_of_bind hok
    have hfound : foundKey = true := by simpa using not_of_throwIf hfound
    subst hfound
    obtain rfl := Except.ok.inj hok
    refine ⟨rfl, _, hregistered, hdir, Or.inr ?_⟩
    exact (completeImages_ok himages).resolve_left Bool.false_ne_true
  · obtain ⟨_, hlegacy, hok⟩ := ok_of_bind hok
    obtain rfl := Except.ok.inj hok
    exact ⟨rfl, _, hregistered, hdir, Or.inl (not_not.1 (not_of_throwIf hlegacy))⟩

/-! ### Sequences of imports -/

inductive Event where
  | begins (key : Text)
  | complete (f : Files) (key data : Text) (collections : List Collection)
  | fail (key : Text)
  | discover (f : Files) (collections : List Collection)

/-- The imports, and the keys that were begun and neither completed nor failed. -/
structure Session where
  imports : Imports := {}
  running : List Text := []

/-- An import that throws leaves everything as it is. -/
def step (h : Helpers Object Node) (s : Session) : Event → Session
  | .begins k =>
    { imports := (begins k s.imports).2
      running := if (begins k s.imports).1 then k :: s.running else s.running }
  | .complete f k data collections =>
    match complete h f k data collections s.imports with
    | .ok imports => { imports, running := s.running.erase k }
    | .error _ => s
  | .fail k => { imports := fail k s.imports, running := s.running.erase k }
  | .discover f collections => { s with imports := discover h f collections s.imports }

/-- At most one import is active, and one can begin when none is and it is not added. -/
def OneActive (s : Session) : Prop :=
  s.running.length ≤ 1 ∧
    ∀ k, (begins k s.imports).1 = true ↔ s.running = [] ∧ ¬isAdded k s.imports

/-- No import of the empty key begins. -/
def Named (s : Session) : Event → Prop
  | .begins k => k ≠ [] ∨ (begins k s.imports).1 = false
  | _ => True

theorem begins_iff {k : Text} {s : Imports} :
    (begins k s).1 = true ↔ s.active = [] ∧ ¬isAdded k s := by
  rw [begins, isAdded]
  split_ifs with hno
  · refine iff_of_false not_false fun hk => ?_
    rcases hno with hbusy | hadded
    · rw [Imports.busy, hk.1] at hbusy
      exact absurd hbusy (by decide)
    · exact hk.2 hadded
  · obtain ⟨hbusy, hadded⟩ := not_or.1 hno
    rw [Imports.busy, decide_eq_true_eq, not_not] at hbusy
    exact iff_of_true rfl ⟨hbusy, hadded⟩

/-- The state knows whether an import is active. -/
theorem oneActive_iff {s : Session} :
    OneActive s ↔ s.running.length ≤ 1 ∧ (s.imports.active = [] ↔ s.running = []) := by
  refine and_congr_right fun _ => ?_
  constructor
  · intro hbegins
    obtain ⟨k, hk⟩ := Infinite.exists_notMem_finset s.imports.added
    have := (begins_iff.symm.trans (hbegins k))
    exact ⟨fun hactive => (this.1 ⟨hactive, hk⟩).1, fun hrunning => (this.2 ⟨hrunning, hk⟩).1⟩
  · intro hactive k
    rw [begins_iff, hactive]

/-- Nothing is active, or the key that the state has. -/
def Tracked (s : Session) : Prop :=
  s.running = [] ∧ s.imports.active = [] ∨ s.running = [s.imports.active]

/-- **The step lemma.** -/
theorem oneActive_step {s : Session} {e : Event} (hs : Tracked s) (hone : OneActive s) :
    Tracked (step h s e) ∧ (OneActive (step h s e) ↔ Named s e) := by
  rw [oneActive_iff] at hone ⊢
  cases e with
  | begins k =>
    rw [step, Named]
    by_cases hbegins : (begins k s.imports).1 = true
    · obtain ⟨hactive, hadded⟩ := begins_iff.1 hbegins
      have hstate : (begins k s.imports).2.active = k := by
        rw [begins, if_neg]
        rw [Imports.busy, hactive]
        exact fun h => h.elim (by decide) hadded
      rw [if_pos hbegins, hone.2.1 hactive, hbegins, hstate]
      refine ⟨Or.inr (by rw [hstate]), ?_⟩
      simp
    · have hstate : (begins k s.imports).2 = s.imports := by
        rw [begins] at hbegins ⊢
        split_ifs at hbegins ⊢
        · rfl
        · exact absurd rfl hbegins
      rw [if_neg hbegins, hstate]
      exact ⟨hs, iff_of_true hone (Or.inr (by simpa using hbegins))⟩
  | complete f k data collections =>
    rw [step]
    split
    next imports hok =>
      obtain ⟨hactive, rfl, -⟩ := complete_ok hok
      have hrunning : s.running.erase k = [] := by
        rcases hs with ⟨hs, -⟩ | hs
        · rw [hs]
          rfl
        · rw [hs, hactive, List.erase_cons_head]
      rw [hrunning]
      exact ⟨Or.inl ⟨rfl, rfl⟩, by simp [Named]⟩
    next => exact ⟨hs, iff_of_true hone trivial⟩
  | fail k =>
    rw [step, fail]
    split_ifs with hactive
    · have hrunning : s.running.erase k = [] := by
        rcases hs with ⟨hs, -⟩ | hs
        · rw [hs]
          rfl
        · rw [hs, hactive, List.erase_cons_head]
      rw [hrunning]
      exact ⟨Or.inl ⟨rfl, rfl⟩, by simp [Named]⟩
    · have hrunning : s.running.erase k = s.running := by
        refine List.erase_of_not_mem fun hk => ?_
        rcases hs with ⟨hs, -⟩ | hs
        · rw [hs] at hk
          cases hk
        · rw [hs, List.mem_singleton] at hk
          exact hactive hk.symm
      rw [hrunning]
      exact ⟨hs, iff_of_true hone trivial⟩
  | discover f collections => exact ⟨hs, iff_of_true hone trivial⟩

/-- **Completing and discovering.** A completed import has left a registered pack that makes the
key, or a sidecar that does, and a search finds it exactly if it is not the empty key and the pack
is there, or one of the sidecars is admitted. An import that throws adds nothing. At most one import
is active at a time, exactly if the empty key never begins. -/
theorem completing_and_discovering (h : Helpers Object Node) :
    (∀ f k data collections s s', complete h f k data collections s = .ok s' →
      (∃ c ∈ collections, legacyPackKey h f c.dir = k ∨ ∃ name doc, Makes h f c.dir name doc k) ∧
        (isAdded k (discover h f collections {}) ↔ k ≠ [] ∧ ∃ c ∈ collections,
          legacyPackKey h f c.dir = k ∨
            ∃ name doc, Makes h f c.dir name doc k ∧ Admitted h f c.dir name doc)) ∧
    (∀ f k data collections s message, complete h f k data collections s.imports = .error message →
      ∀ k', isAdded k' (step h s (.complete f k data collections)).imports ↔
        isAdded k' s.imports) ∧
    ∀ events, (∀ events', events' <+: events → OneActive (Transition.run (step h) {} events')) ↔
      Transition.Guarded (step h) Named {} events := by
  refine ⟨?_, ?_, ?_⟩
  · intro f k data collections s s' hok
    obtain ⟨-, -, c, hc, -, hmakes⟩ := complete_ok hok
    exact ⟨⟨c, hc, hmakes⟩, mem_discover_iff⟩
  · intro f k data collections s message herror k'
    rw [step, herror]
  · have htracked : Tracked {} := Or.inl ⟨rfl, rfl⟩
    have hone : OneActive {} := oneActive_iff.2 ⟨Nat.zero_le 1, iff_of_true rfl rfl⟩
    exact Transition.guarded_iff_forall_prefix (I := Tracked) (P := OneActive)
      (fun s e hs hone => (oneActive_step hs hone).1)
      (fun s e hs hone => (oneActive_step hs hone).2) htracked hone

/-! ### An id of another form -/

/-- Helpers that read the members of an object. -/
def exampleHelpers (parse : Text → Except String Json) :
    Helpers (List (Text × Json)) (Option Json) where
  document data := do
    match ← parse data with
    | .object members => return members
    | _ => throw "not an object"
  text members name :=
    match members.lookup name with
    | some (.string t) => .ok t
    | _ => .error "not a text"
  optionalText members name :=
    match members.lookup name with
    | some (.string t) => .ok t
    | none => .ok []
    | _ => .error "not a text"
  member members name := members.lookup name
  objectNode
    | some (.object members) => .ok members
    | _ => .error "not an object"
  array members name :=
    match members.lookup name with
    | some (.array elements) => .ok (elements.map some)
    | _ => .error "not an array"
  providerId provider := provider = ofString "gnome-look"
  numericId id := id ≠ [] && id.all isDigit
  optional_of_text members name t ht := by
    split at ht
    next heq => rwa [heq]
    next => cases ht
  text_of_optional members name t ht hne := by
    split at ht
    next heq => rwa [heq]
    next => exact absurd (Except.ok.inj ht).symm hne
    next => cases ht

def string (s : String) : Json := .string (ofString s)

/-- What the helper prints. -/
def answer : Text :=
  ofString ("\x7b\"pack_id\":\"imported-ocs\",\"destination\":\"/p\"," ++
    "\"collection\":\"/p.collection\"," ++
    "\"images\":[\x7b\"file\":\"a.jpg\",\"sidecar\":\"a.json\"\x7d]\x7d")

def sidecar : Text := ofString "\x7b\"provider\":\"openverse\",\"id\":\"7\"\x7d"

/-- The parser, on the two texts. -/
def parse (data : Text) : Except String Json :=
  if data = answer then
    .ok (.object [(ofString "pack_id", string "imported-ocs"),
      (ofString "destination", string "/p"), (ofString "collection", string "/p.collection"),
      (ofString "images", .array [.object [(ofString "file", string "a.jpg"),
        (ofString "sidecar", string "a.json")]])])
  else if data = sidecar then
    .ok (.object [(ofString "provider", string "openverse"), (ofString "id", string "7")])
  else .error "not one of them"

/-- A directory with a picture and its sidecar. -/
def exampleFiles : Files where
  isDir path := path = ofString "/p"
  isRegular path :=
    path ∈ [ofString "/p.collection", ofString "/p/a.jpg", ofString "/p/a.json"]
  contents path := if path = ofString "/p/a.json" then .ok sidecar else .error "no such file"
  names path := if path = ofString "/p" then [ofString "a.jpg", ofString "a.json"] else []

/-- The import of a picture whose id is not a UUID is completed, and not found again. -/
theorem not_discovered :
    (complete (exampleHelpers parse) exampleFiles (ofString "openverse:7") answer
      [⟨ofString "imported-ocs", ofString "/p"⟩] { active := ofString "openverse:7" }).isOk ∧
    ¬isAdded (ofString "openverse:7") (discover (exampleHelpers parse) exampleFiles
      [⟨ofString "imported-ocs", ofString "/p"⟩] {}) := by
  rw [isAdded]
  decide +kernel

end OcsImports

end Wallpaper

end SingularityShell
