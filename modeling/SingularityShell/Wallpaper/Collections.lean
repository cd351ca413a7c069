import Mathlib.Data.List.Basic
import SingularityShell.Lib.Json

/-!
# Collections of wallpapers

A collection is a directory with a registry file elsewhere. An image may have a sidecar, the JSON
file with its stem, and may be listed in the manifest of the pack. Deleting the last image deletes
the pack.

## Main definitions

* `Wallpaper.Collections.Tree`, `Pack` — what is in the directory, and the pack
* `Wallpaper.Collections.deleteImage` — an image is deleted, and the pack with the last one
* `Wallpaper.Collections.Frame` — what is gone afterwards
* `Wallpaper.Collections.Safe` — the trees in which nothing else is

## Main results

* `Wallpaper.Collections.frame_iff` — when deleting an image that is not dynamic loses nothing else
* `Wallpaper.Collections.not_frame` — an image in the directory, and another one further down
-/

namespace SingularityShell

namespace Wallpaper

namespace Collections

open Ascii

/-! ### Files -/

/-- The names on the way from the directory of the collection. -/
abbrev Path := List Text

/-- What the JSON parser makes of a file: nothing, or a root that an empty text does not have. -/
inductive Content where
  | other
  | json (root : Option Json)

structure File where
  /-- Its content type starts with `image/`. -/
  image : Bool
  /-- `sniff_timed_xml` takes it for a slide show. -/
  timed : Bool := false
  content : Content := .other

inductive Node where
  | directory
  | file (f : File)

abbrev Tree := List (Path × Node)

/-- What there is at a path. -/
def node (t : Tree) (p : Path) : Option Node := (t.find? fun e => e.1 = p).map Prod.snd

def remove (p : Path) (t : Tree) : Tree := t.filter fun e => e.1 ≠ p

/-- A collection. The directory and the registry file are gone once it has been deleted. -/
structure Pack where
  /-- `can_delete_now` -/
  deletable : Bool
  directory : Bool := true
  registry : Bool := true
  tree : Tree

/-- How the file operations of a call end. -/
structure Io where
  deletes : Path → Bool := fun _ => true
  writes : Bool := true
  lists : Bool := true
  removesTree : Bool := true
  removesRegistry : Bool := true

/-! ### The operations -/

variable (down : Text → Text)

def isDynamicPath (path : Path) (f : File) : Bool :=
  let lower := down (path.getLastD [])
  (ofString ".dynamic.json").isSuffixOf lower || ((ofString ".xml").isSuffixOf lower && f.timed)

/-- What stands before the last dot, if anything does. -/
def stem (basename : Text) : Option Text :=
  if 46 ∈ basename then
    let stem := (basename.reverse.dropWhile (· ≠ 46)).tail.reverse
    if stem = [] then none else some stem
  else none

/-- The name of the sidecar of an image. -/
def sidecar (basename : Text) : Option Text := (stem basename).map (· ++ ofString ".json")

/-- The file that an entry of the manifest names. -/
def fileOf : Json → Option Text
  | .object members =>
    match members.lookup (ofString "file") with
    | some (.string name) => some name
    | _ => none
  | _ => none

/-- The members of a manifest, and its entries. -/
def parts (f : File) : Option (List (Text × Json) × List Json) :=
  match f.content with
  | .json (some (.object members)) =>
    match members.lookup (ofString "images") with
    | some (.array images) => some (members, images)
    | _ => none
  | _ => none

def listed (f : File) : Option (List Json) := (parts f).map Prod.snd

/-- A manifest without the entries that name a file. -/
def unlist (name : Text) (f : File) : File :=
  match parts f with
  | some (members, images) =>
    let kept := images.filter fun entry => fileOf entry ≠ some name
    { f with content := .json (some (.object (members.map fun m =>
        if m.1 = ofString "images" then (m.1, .array kept) else m))) }
  | none => f

def unlistNode (name : Text) : Node → Node
  | .directory => .directory
  | .file f => .file (unlist name f)

/-- The path of the manifest. -/
def manifest : Path := [ofString "pack.json"]

def updateLegacyManifest (io : Io) (basename : Text) (t : Tree) : Except String Tree :=
  match node t manifest with
  | some (.file f) =>
    match f.content with
    | .other => .error "Parse error"
    | .json _ =>
      if (listed f).isSome && !io.writes then .error "Cannot write the manifest"
      else .ok (t.map fun e => if e.1 = manifest then (e.1, unlistNode basename e.2) else e)
  | _ => .ok t

def deleteSidecar (io : Io) (basename : Text) (t : Tree) : Except String Tree :=
  match sidecar basename with
  | none => .ok t
  | some name =>
    match node t [name] with
    | none => .ok t
    | some found =>
      let filled := match found with
        | .directory => t.any fun e => [name].isPrefixOf e.1 && e.1 ≠ [name]
        | .file _ => false
      if filled || !io.deletes [name] then .error "Cannot delete the sidecar"
      else .ok (remove [name] t)

/-- An image in the directory itself. -/
def topImage : Path × Node → Bool
  | ([_], .file f) => f.image
  | _ => false

def imageCount (t : Tree) : ℕ := t.countP topImage

def deletePack (io : Io) (pack : Pack) : Except String Pack :=
  if !pack.deletable then .error "Protected wallpaper collection"
  else if !io.removesTree || !io.removesRegistry then .error "Cannot delete the collection"
  else .ok { pack with directory := false, registry := false, tree := [] }

/-- `delete_image` for a path inside the directory, if it is inside. `deleteDynamic` stands for the
deletion of a dynamic wallpaper. -/
def deleteImage (deleteDynamic : Pack → Path → Except String (Bool × Pack)) (io : Io) (pack : Pack)
    (image : Option Path) : Except String (Bool × Pack) :=
  match image with
  | none => .error "Protected wallpaper image"
  | some path =>
    if !pack.deletable then .error "Protected wallpaper image"
    else
      match node pack.tree path with
      | some (.file f) =>
        if isDynamicPath down path f then deleteDynamic pack path
        else if !io.deletes path then .error "Cannot delete the image"
        else do
          let basename := path.getLastD []
          let t ← deleteSidecar io basename (remove path pack.tree)
          let t ← updateLegacyManifest io basename t
          if !io.lists then .error "Cannot list the collection"
          else if imageCount t = 0 then do
            let pack ← deletePack io { pack with tree := t }
            return (true, pack)
          else return (false, { pack with tree := t })
      | _ => .error "Wallpaper image is not a regular file"

/-! ### What is meant -/

/-- The sidecar next to an image. -/
def ownSidecar (path : Path) : Option Path :=
  (sidecar (path.getLastD [])).map fun name => path.dropLast ++ [name]

/-- The way to an image, as a manifest names it. -/
def nameOf (path : Path) : Text := [47].intercalate path

/-- The tree without an image and its own sidecar. -/
def rest (t : Tree) (path : Path) : Tree :=
  match ownSidecar path with
  | none => remove path t
  | some s => remove s (remove path t)

/-- Neither an image nor a dynamic wallpaper is left. -/
def Bare (t : Tree) : Prop :=
  ∀ e ∈ t, ∀ f, e.2 = .file f → f.image = false ∧ isDynamicPath down e.1 f = false

/-- What may be gone once an image has been deleted. -/
structure Frame (pack : Pack) (path : Path) (r : Bool × Pack) : Prop where
  removed : r.1 = true ↔ Bare down (rest pack.tree path)
  whole : r.1 = true → r.2.tree = [] ∧ r.2.directory = false ∧ r.2.registry = false
  others : r.1 = false → r.2.directory = pack.directory ∧ r.2.registry = pack.registry ∧
    ∀ q, node r.2.tree q =
      if q = manifest then (node (rest pack.tree path) q).map (unlistNode (nameOf path))
      else node (rest pack.tree path) q

/-- Nothing is left, or an image in the directory itself is, and the image is there too or has
neither a sidecar nor a namesake in the directory or the manifest. -/
def Safe (pack : Pack) (path : Path) : Prop :=
  Bare down (rest pack.tree path) ∨
    (∃ e ∈ rest pack.tree path, topImage e = true) ∧
    (∀ name, sidecar (path.getLastD []) = some name → path.length = 1 ∨
      node (remove path pack.tree) [name] = none ∧
        node (remove path pack.tree) (path.dropLast ++ [name]) = none) ∧
    ∀ f, node (rest pack.tree path) manifest = some (.file f) → ∀ images, listed f = some images →
      ∀ entry ∈ images, fileOf entry = some (path.getLastD []) ↔ fileOf entry = some (nameOf path)

/-! ### Trees -/

variable {down} {t : Tree} {p q path : Path}

theorem node_remove : node (remove p t) q = if q = p then none else node t q := by
  rw [node, node, remove, List.find?_filter]
  split_ifs with h
  · rw [Option.map_eq_none_iff, List.find?_eq_none]
    intro e _ he
    simp only [decide_not, Bool.not_eq_true', decide_eq_false_iff_not, decide_eq_true_eq] at he
    exact he.1 (he.2.trans h)
  · congr 2
    funext e
    by_cases he : e.1 = q
    · simp [he, h]
    · simp [he]

theorem remove_of_node (h : node t p = none) : remove p t = t := by
  rw [node, Option.map_eq_none_iff, List.find?_eq_none] at h
  exact List.filter_eq_self.mpr fun e he => by simpa using h e he

theorem node_map_unlist (name : Text) :
    node (t.map fun e => if e.1 = manifest then (e.1, unlistNode name e.2) else e) q =
      if q = manifest then (node t q).map (unlistNode name) else node t q := by
  induction t with
  | nil => split_ifs <;> rfl
  | cons e t ih =>
    have hkey : (if e.1 = manifest then (e.1, unlistNode name e.2) else e).1 = e.1 := by
      split_ifs <;> rfl
    rw [List.map_cons, node, node, List.find?_cons, List.find?_cons, hkey]
    by_cases he : e.1 = q
    · simp only [he, decide_true, Option.map_some]
      split_ifs <;> rfl
    · simp only [he, decide_false]
      exact ih

theorem topImage_unlist (name : Text) (e : Path × Node) :
    topImage (if e.1 = manifest then (e.1, unlistNode name e.2) else e) = topImage e := by
  have himage : ∀ f : File, (unlist name f).image = f.image := fun f => by
    rw [unlist]
    split <;> rfl
  split_ifs with h
  · obtain ⟨path, n⟩ := e
    obtain rfl : path = manifest := h
    cases n with
    | directory => rfl
    | file f => exact himage f
  · rfl

/-! ### Manifests -/

theorem lookup_of_parts {f : File} {members : List (Text × Json)} {images : List Json}
    (h : parts f = some (members, images)) :
    members.lookup (ofString "images") = some (.array images) := by
  rw [parts] at h
  split at h
  · split at h
    · next hlookup =>
      obtain ⟨rfl, rfl⟩ := Prod.mk.inj (Option.some.inj h)
      exact hlookup
    · cases h
  · cases h

theorem lookup_map_images {members : List (Text × Json)} {images kept : Json}
    (h : members.lookup (ofString "images") = some images) :
    (members.map fun m => if m.1 = ofString "images" then (m.1, kept) else m).lookup
      (ofString "images") = some kept := by
  induction members with
  | nil => cases h
  | cons m members ih =>
    by_cases hm : m.1 = ofString "images"
    · rw [List.map_cons, if_pos hm, List.lookup_cons]
      simp [hm]
    · have hne : (ofString "images" == m.1) = false := by
        rw [beq_eq_false_iff_ne]
        exact Ne.symm hm
      rw [List.lookup_cons, hne] at h
      rw [List.map_cons, if_neg hm, List.lookup_cons, hne]
      exact ih h

theorem unlist_of_parts {f : File} {members : List (Text × Json)} {images : List Json}
    (h : parts f = some (members, images)) (name : Text) : unlist name f =
      { f with content := .json (some (.object (members.map fun m =>
        if m.1 = ofString "images" then
          (m.1, .array (images.filter fun entry => fileOf entry ≠ some name)) else m))) } := by
  rw [unlist, h]

theorem unlist_of_none {f : File} (h : parts f = none) (name : Text) : unlist name f = f := by
  rw [unlist, h]

theorem listed_unlist {f : File} {images : List Json} (h : listed f = some images) (name : Text) :
    listed (unlist name f) = some (images.filter fun entry => fileOf entry ≠ some name) := by
  obtain ⟨⟨members, found⟩, hparts, rfl⟩ := Option.map_eq_some_iff.mp h
  rw [unlist_of_parts hparts, listed, parts]
  dsimp only
  rw [lookup_map_images (lookup_of_parts hparts)]
  rfl

/-- Two names are taken out of a manifest alike when its entries do not tell them apart. -/
theorem unlist_eq_iff {f : File} {a b : Text} : unlist a f = unlist b f ↔
    ∀ images, listed f = some images → ∀ entry ∈ images,
      fileOf entry = some a ↔ fileOf entry = some b := by
  constructor
  · intro h images himages entry hentry
    have hfilter := (listed_unlist himages a).symm.trans (h ▸ listed_unlist himages b)
    have hiff : (entry ∈ images ∧ ¬fileOf entry = some a) ↔
        (entry ∈ images ∧ ¬fileOf entry = some b) := by
      have := congrArg (entry ∈ ·) (Option.some.inj hfilter)
      simpa [List.mem_filter] using this
    simp only [hentry, true_and] at hiff
    exact not_iff_not.mp hiff
  · intro h
    cases hparts : parts f with
    | none => rw [unlist_of_none hparts, unlist_of_none hparts]
    | some found =>
      have hlisted : listed f = some found.2 := by rw [listed, hparts]; rfl
      have hfilter : (found.2.filter fun entry => decide (fileOf entry ≠ some a)) =
          found.2.filter fun entry => decide (fileOf entry ≠ some b) :=
        List.filter_congr fun e he => by simp [h found.2 hlisted e he]
      rw [unlist_of_parts hparts, unlist_of_parts hparts, hfilter]

/-! ### The operations -/

/-- The tree without an image and the file of its stem in the directory itself. -/
def swept (t : Tree) (path : Path) : Tree :=
  match sidecar (path.getLastD []) with
  | none => remove path t
  | some name => remove [name] (remove path t)

variable {io : Io} {pack : Pack} {f : File} {r : Bool × Pack}
  {deleteDynamic : Pack → Path → Except String (Bool × Pack)}

theorem deleteSidecar_eq {basename : Text} {t' : Tree}
    (h : deleteSidecar io basename t = .ok t') : t' = match sidecar basename with
      | none => t
      | some name => remove [name] t := by
  rw [deleteSidecar] at h
  cases hsidecar : sidecar basename with
  | none =>
    rw [hsidecar] at h
    exact (Except.ok.inj h).symm
  | some name =>
    rw [hsidecar] at h
    dsimp only at h ⊢
    cases hnode : node t [name] with
    | none =>
      rw [hnode] at h
      rw [remove_of_node hnode]
      exact (Except.ok.inj h).symm
    | some found =>
      rw [hnode] at h
      cases found <;> dsimp only at h <;> split_ifs at h <;> exact (Except.ok.inj h).symm

theorem updateLegacyManifest_spec {basename : Text} {t' : Tree}
    (h : updateLegacyManifest io basename t = .ok t') : imageCount t' = imageCount t ∧
      ∀ q, node t' q =
        if q = manifest then (node t q).map (unlistNode basename) else node t q := by
  have hsame : ∀ n : Option Node, node t manifest = n → n.map (unlistNode basename) = n → ∀ q,
      node t q = if q = manifest then (node t q).map (unlistNode basename) else node t q := by
    rintro n hn hmap q
    split_ifs with hq
    · rw [hq, hn, hmap]
    · rfl
  rw [updateLegacyManifest] at h
  cases hnode : node t manifest with
  | none =>
    rw [hnode] at h
    obtain rfl := Except.ok.inj h
    exact ⟨rfl, hsame _ hnode rfl⟩
  | some found =>
    cases found with
    | directory =>
      rw [hnode] at h
      obtain rfl := Except.ok.inj h
      exact ⟨rfl, hsame _ hnode rfl⟩
    | file f =>
      rw [hnode] at h
      dsimp only at h
      split at h
      · cases h
      · split at h
        · cases h
        · obtain rfl := Except.ok.inj h
          refine ⟨?_, fun q => node_map_unlist basename⟩
          rw [imageCount, imageCount, List.countP_map]
          exact List.countP_congr fun e _ => by
            rw [Function.comp_apply, topImage_unlist]

theorem deletePack_eq {gone : Pack} (h : deletePack io pack = .ok gone) :
    gone = { pack with directory := false, registry := false, tree := [] } := by
  rw [deletePack] at h
  split_ifs at h
  exact (Except.ok.inj h).symm

/-- What a deletion that succeeds has done. -/
theorem deleteImage_spec (h : deleteImage down deleteDynamic io pack (some path) = .ok r)
    (hf : node pack.tree path = some (.file f)) (hd : isDynamicPath down path f = false) :
    ∃ t : Tree, (∀ q, node t q =
        if q = manifest then (node (swept pack.tree path) q).map (unlistNode (path.getLastD []))
        else node (swept pack.tree path) q) ∧
      r = if imageCount (swept pack.tree path) = 0 then
          (true, { pack with directory := false, registry := false, tree := [] })
        else (false, { pack with tree := t }) := by
  rw [deleteImage] at h
  dsimp only at h
  split at h
  · cases h
  rw [hf] at h
  dsimp only at h
  rw [hd, if_neg (by decide)] at h
  split at h
  · cases h
  cases hsidecar : deleteSidecar io (path.getLastD []) (remove path pack.tree) with
  | error e =>
    rw [hsidecar] at h
    cases h
  | ok t₁ =>
    rw [hsidecar] at h
    have hswept : t₁ = swept pack.tree path := deleteSidecar_eq hsidecar
    cases hupdate : updateLegacyManifest io (path.getLastD []) t₁ with
    | error e =>
      simp only [bind, Except.bind, hupdate] at h
      cases h
    | ok t =>
      obtain ⟨hcount, hnode⟩ := updateLegacyManifest_spec hupdate
      rw [hswept] at hcount hnode
      refine ⟨t, hnode, ?_⟩
      simp only [bind, Except.bind, hupdate, hcount] at h
      split at h
      · cases h
      split_ifs at h with hbare
      · cases hpack : deletePack io { pack with tree := t } with
        | error e =>
          rw [hpack] at h
          cases h
        | ok gone =>
          rw [hpack] at h
          rw [if_pos hbare, ← Except.ok.inj h, deletePack_eq hpack]
      · rw [if_neg hbare]
        exact (Except.ok.inj h).symm

/-! ### What is left -/

theorem mem_remove {e : Path × Node} : e ∈ remove p t ↔ e ∈ t ∧ e.1 ≠ p := by
  simp [remove]

/-- Where nothing is left the images have been counted right. -/
theorem imageCount_of_bare (h : Bare down (rest t path)) : imageCount (swept t path) = 0 := by
  rw [imageCount, List.countP_eq_zero]
  rintro ⟨q, n⟩ he htop
  obtain ⟨name, f, rfl, rfl, himage⟩ : ∃ name f, q = [name] ∧ n = .file f ∧ f.image = true := by
    rw [topImage.eq_def] at htop
    split at htop
    · next heq =>
      obtain ⟨rfl, rfl⟩ := Prod.mk.inj heq
      exact ⟨_, _, rfl, rfl, htop⟩
    · cases htop
  have hmem : ([name], Node.file f) ∈ rest t path := by
    rw [swept] at he
    rw [rest, ownSidecar]
    cases hsidecar : sidecar (path.getLastD []) with
    | none =>
      rw [hsidecar] at he
      exact he
    | some own =>
      rw [hsidecar] at he
      obtain ⟨he, hne⟩ := mem_remove.mp he
      refine mem_remove.mpr ⟨he, fun hown => ?_⟩
      -- A path of one name that is next to the image is the one that has been removed.
      cases hparent : path.dropLast with
      | nil =>
        rw [hparent] at hown
        exact hne hown
      | cons d ds =>
        rw [hparent] at hown
        have hlen := congrArg List.length hown
        simp at hlen
  exact absurd himage (by rw [(h _ hmem f rfl).1]; decide)

theorem swept_eq_rest (h : ∀ name, sidecar (path.getLastD []) = some name → path.length = 1 ∨
    node (remove path t) [name] = none ∧ node (remove path t) (path.dropLast ++ [name]) = none) :
    swept t path = rest t path := by
  rw [swept, rest, ownSidecar]
  cases hsidecar : sidecar (path.getLastD []) with
  | none => rfl
  | some name =>
    rcases h name hsidecar with hlen | ⟨htop, hown⟩
    · obtain ⟨b, rfl⟩ := List.length_eq_one_iff.mp hlen
      rfl
    · show remove [name] (remove path t) = remove (path.dropLast ++ [name]) (remove path t)
      rw [remove_of_node htop, remove_of_node hown]

/-- **What deleting an image loses**, when it succeeds: nothing else exactly where nothing is left
or an image in the directory itself is, and an image further down has no namesakes. -/
theorem frame_iff (hsuccess : deleteImage down deleteDynamic io pack (some path) = .ok r)
    (hf : node pack.tree path = some (.file f)) (hd : isDynamicPath down path f = false) :
    Frame down pack path r ↔ Safe down pack path := by
  obtain ⟨t, hnode, hr⟩ := deleteImage_spec hsuccess hf hd
  constructor
  · intro h
    by_cases hbare : Bare down (rest pack.tree path)
    · exact .inl hbare
    have hfalse : r.1 = false := Bool.eq_false_iff.mpr fun ht => hbare (h.removed.mp ht)
    by_cases hcount : imageCount (swept pack.tree path) = 0
    · rw [if_pos hcount] at hr
      rw [hr] at hfalse
      cases hfalse
    rw [if_neg hcount] at hr
    have hothers : ∀ q, node t q = if q = manifest then
        (node (rest pack.tree path) q).map (unlistNode (nameOf path))
        else node (rest pack.tree path) q := fun q => by
      have := (h.others hfalse).2.2 q
      rwa [hr] at this
    have hsame := fun q => (hnode q).symm.trans (hothers q)
    have hnames : ∀ name, sidecar (path.getLastD []) = some name → path.length = 1 ∨
        node (remove path pack.tree) [name] = none ∧
          node (remove path pack.tree) (path.dropLast ++ [name]) = none := by
      intro name hname
      by_cases hlen : path.length = 1
      · exact .inl hlen
      have hparent : path.dropLast ≠ [] := by
        intro hnil
        have hzero : path.length - 1 = 0 := by rw [← List.length_dropLast, hnil]; rfl
        have hpath : path = [] := List.length_eq_zero_iff.mp (by omega)
        rw [hpath] at hname
        cases hname
      have hlong : ∀ n, path.dropLast ++ [name] ≠ [n] := fun n he => by
        have hlength := congrArg List.length he
        rw [List.length_append, List.length_singleton, List.length_singleton] at hlength
        exact hparent (List.length_eq_zero_iff.mp (by omega))
      have hswept : ∀ q, node (swept pack.tree path) q =
          if q = [name] then none else node (remove path pack.tree) q := fun q => by
        rw [swept, hname]
        exact node_remove
      have hrest : ∀ q, node (rest pack.tree path) q =
          if q = path.dropLast ++ [name] then none else node (remove path pack.tree) q := by
        intro q
        rw [rest, ownSidecar, hname]
        exact node_remove
      refine .inr ⟨?_, ?_⟩
      · have htop := hsame [name]
        rw [hswept, hrest, if_pos rfl, if_neg (Ne.symm (hlong name))] at htop
        split_ifs at htop
        · exact Option.map_eq_none_iff.mp htop.symm
        · exact htop.symm
      · have hown := hsame (path.dropLast ++ [name])
        have hother : path.dropLast ++ [name] ≠ manifest := hlong _
        rwa [hswept, hrest, if_neg (hlong _), if_neg hother, if_neg hother, if_pos rfl] at hown
    have heq := swept_eq_rest hnames
    refine .inr ⟨?_, hnames, fun m hm => ?_⟩
    · rw [heq] at hcount
      by_contra hnone
      refine hcount (List.countP_eq_zero.mpr fun e he htop => hnone ⟨e, he, htop⟩)
    · have hmanifest := hsame manifest
      rw [if_pos rfl, if_pos rfl, heq, hm, Option.map_some, Option.map_some] at hmanifest
      exact unlist_eq_iff.mp (Node.file.inj (Option.some.inj hmanifest))
  · rintro (hbare | ⟨⟨e, he, htop⟩, hnames, hentries⟩)
    · rw [if_pos (imageCount_of_bare hbare)] at hr
      rw [hr]
      exact ⟨⟨fun _ => hbare, fun _ => rfl⟩, fun _ => ⟨rfl, rfl, rfl⟩, nofun⟩
    · have heq := swept_eq_rest hnames
      have hcount : imageCount (swept pack.tree path) ≠ 0 := fun hzero => by
        rw [heq, imageCount, List.countP_eq_zero] at hzero
        exact hzero e he htop
      rw [if_neg hcount] at hr
      rw [hr]
      refine ⟨⟨nofun, fun hbare => absurd (imageCount_of_bare hbare) hcount⟩, nofun,
        fun _ => ⟨rfl, rfl, fun q => ?_⟩⟩
      show node t q = _
      rw [hnode q, heq]
      split_ifs with hq
      · rw [hq]
        cases hm : node (rest pack.tree path) manifest with
        | none => rfl
        | some found =>
          cases found with
          | directory => rfl
          | file m =>
            exact congrArg (some ∘ Node.file) (unlist_eq_iff.mpr (hentries m hm))
      · rfl

def entry (name : String) : Json := .object [(ofString "file", .string (ofString name))]

/-- A pack of two images, one of them with a sidecar. -/
def twoImages : Pack :=
  { deletable := true
    tree := [
      ([ofString "one.jpg"], .file { image := true }),
      ([ofString "one.json"], .file { image := false }),
      ([ofString "two.jpg"], .file { image := true }),
      (manifest, .file {
        image := false
        content := .json (some (.object
          [(ofString "images", .array [entry "one.jpg", entry "two.jpg"])])) })] }

/-- The pack without the first. -/
def oneImage : Pack :=
  { deletable := true
    tree := [
      ([ofString "two.jpg"], .file { image := true }),
      (manifest, .file {
        image := false
        content := .json (some (.object [(ofString "images", .array [entry "two.jpg"])])) })] }

theorem frame_twoImages : Frame id twoImages [ofString "one.jpg"] (false, oneImage) := by
  have hsuccess : deleteImage id (fun _ _ => .error "") {} twoImages (some [ofString "one.jpg"]) =
      .ok (false, oneImage) := rfl
  refine (frame_iff (f := { image := true }) hsuccess rfl rfl).mpr (.inr ⟨?_, ?_, ?_⟩)
  · exact ⟨_, List.mem_cons_self, rfl⟩
  · exact fun _ _ => .inl rfl
  · exact fun _ _ _ _ _ _ => Iff.rfl

/-- The last image in the directory itself is deleted, and all that is further down with it. -/
theorem not_frame : ¬∀ (deleteDynamic : Pack → Path → Except String (Bool × Pack)) (io : Io)
    (pack : Pack) (path : Path) (f : File) (r : Bool × Pack),
      deleteImage id deleteDynamic io pack (some path) = .ok r →
        node pack.tree path = some (.file f) → isDynamicPath id path f = false →
          Frame id pack path r := by
  intro h
  have hframe := h (fun _ _ => .error "") {}
    { deletable := true
      tree := [
        ([ofString "a.jpg"], .file { image := true }),
        ([ofString "more"], .directory),
        ([ofString "more", ofString "b.jpg"], .file { image := true })] }
    [ofString "a.jpg"] { image := true } _ rfl rfl rfl
  have hbare := hframe.removed.mp rfl
  exact absurd (hbare ([ofString "more", ofString "b.jpg"], .file { image := true })
    (List.mem_cons_of_mem _ List.mem_cons_self) _ rfl).1 (by decide)

end Collections

end Wallpaper

end SingularityShell
