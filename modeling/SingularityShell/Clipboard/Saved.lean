import SingularityShell.Clipboard.History

/-!
# Pinned entries after a restart

What a new history loads from the file that an old one has written.

## Main definitions

* `Clipboard.RoundTrips` — the pinned entries are the same after they are saved and loaded
* `Clipboard.Storable` — every pinned entry has a notation in the file

## Main results

* `Clipboard.pinned_roundTrips_iff` — exactly the storable histories are the same
* `Clipboard.not_pinned_roundTrips` — a text is cut at its first zero byte
-/

namespace SingularityShell

namespace Clipboard

open Ascii SingularityShell.Path Transition Utf8 ClipboardModel

variable (lib : Library)

/-- What is compared of an entry. -/
def ClipboardEntry.saved (e : ClipboardEntry) : Text × Text × Text × ℤ × Bool :=
  (e.mime, e.data, e.digest, e.timestamp, e.pinned)

/-- A new history that loads the file and the images of `m` has the pinned entries of `m`. -/
def RoundTrips (imageDir : Text) (files : Text → Option Text) (m : ClipboardModel) : Prop :=
  let (json, files') := m.pinnedToJson lib imageDir files
  (loadPinned lib {} (lib.reparse json) imageDir files').entries.map (·.saved) =
    m.pinnedEntries.map (·.saved)

/-- The mime types are UTF-8, and so is the data of every entry that is no image, without a zero
byte. -/
def Storable (m : ClipboardModel) : Prop :=
  ∀ e ∈ m.pinnedEntries, IsString e.mime ∧ (isImage e.mime = true ∨ IsString e.data)

instance (m : ClipboardModel) : Decidable (Storable m) :=
  inferInstanceAs (Decidable (∀ e ∈ m.pinnedEntries, _))

/-- The calls of the program: timestamps have 64 bits, and files are what the parser has made of
them. -/
def Typed (m : ClipboardModel) : Op → Prop
  | .add _ _ timestamp => -2 ^ 63 ≤ timestamp ∧ timestamp < 2 ^ 63
  | .loadPinned json _ _ => m.entries = [] ∧ ∀ node, json = some node → Json.All Json.Proper node
  | _ => True

/-- What is true of every entry of any history. -/
structure Sound (e : ClipboardEntry) : Prop where
  digest : e.digest = lib.checksum e.data
  data : e.data ≠ []
  timestamp : -2 ^ 63 ≤ e.timestamp ∧ e.timestamp < 2 ^ 63

/-- What is true of any history. -/
structure Origin (m : ClipboardModel) : Prop where
  sound : ∀ e ∈ m.entries, Sound lib e
  digests : m.entries.Pairwise (·.digest ≠ ·.digest)

section
variable {lib} {m : ClipboardModel}

/-! ### What is true of any history -/

theorem Origin.of_sublist (h : Origin lib m) {m' : ClipboardModel}
    (hs : m'.entries.Sublist m.entries) : Origin lib m' :=
  ⟨fun e he => h.sound e (hs.mem he), h.digests.sublist hs⟩

theorem readItem_eq_some_iff {imageDir : Text} {files : Text → Option Text}
    {p : List (Text × Json)} {item : Text × Text × ℤ} :
    readItem lib imageDir files (.object p) = some item ↔
      ∃ data, readData lib imageDir files p = some data ∧ data ≠ [] ∧
        item = (lib.stringOr "mime" p plainMime, data, lib.intOr "timestamp" p 0) := by
  rw [readItem]
  cases readData lib imageDir files p with
  | none => simp
  | some data => simp [eq_comm]

/-- What an element of a parsed file holds. -/
theorem sound_readItem {imageDir : Text} {files : Text → Option Text} {node : Json}
    {item : Text × Text × ℤ} (hn : Json.All Json.Proper node)
    (h : readItem lib imageDir files node = some item) :
    IsString item.1 ∧ item.2.1 ≠ [] ∧ -2 ^ 63 ≤ item.2.2 ∧ item.2.2 < 2 ^ 63 := by
  cases hn with
  | object _ hp =>
    obtain ⟨data, -, hne, rfl⟩ := readItem_eq_some_iff.mp h
    have hmime : IsString plainMime := by decide +kernel
    exact ⟨lib.isString_stringOr hp hmime, hne, lib.int64_intOr hp (by decide)⟩
  | _ => cases h

theorem sound_readItems {imageDir : Text} {files : Text → Option Text} {json : Option Json}
    {items : List (Text × Text × ℤ)} (hjson : ∀ node, json = some node → Json.All Json.Proper node)
    (h : readItems lib imageDir files json = some items) :
    ∀ item ∈ items, IsString item.1 ∧ item.2.1 ≠ [] ∧ -2 ^ 63 ≤ item.2.2 ∧ item.2.2 < 2 ^ 63 := by
  cases json with
  | none => cases h
  | some node =>
    cases hjson node rfl with
    | object _ hp =>
      obtain ⟨pinned, hl, rfl⟩ := Option.map_eq_some_iff.mp h
      intro item hitem
      obtain ⟨element, he, hread⟩ := List.mem_filterMap.mp hitem
      have hpinned := Json.all_of_lookup hp hl
      exact sound_readItem (lib.all_getElements pinned hpinned element he) hread
    | _ => cases h

theorem sound_pinItems {items : List (Text × Text × ℤ)} {nextId : UInt32}
    (h : ∀ item ∈ items, item.2.1 ≠ [] ∧ -2 ^ 63 ≤ item.2.2 ∧ item.2.2 < 2 ^ 63) :
    ∀ e ∈ pinItems lib nextId items, Sound lib e := by
  induction items generalizing nextId with
  | nil => exact fun e he => (by cases he)
  | cons item items ih =>
    intro e he
    rcases List.mem_cons.mp he with rfl | he
    · obtain ⟨hne, htime⟩ := h item (by simp)
      exact ⟨rfl, hne, htime⟩
    · exact ih (fun x hx => h x (by simp [hx])) e he

theorem Origin.step (h : Origin lib m) {op : Op} (ht : Typed m op) :
    Origin lib (m.step lib op) := by
  cases op with
  | add mime data timestamp =>
    rcases add_cases lib mime data timestamp (m := m) with ⟨-, -, he, -⟩ |
      ⟨e, l₁, l₂, hsplit, -, -, he, -⟩ | ⟨hins, hnew, -, he, -⟩
    · exact h.of_sublist (he ▸ .refl _)
    · have hmem : ∀ x ∈ l₁ ++ l₂, x ∈ m.entries := by
        rw [hsplit]
        simp only [List.mem_append, List.mem_cons]
        rintro x (hx | hx)
        exacts [.inl hx, .inr (.inr hx)]
      constructor
      · intro x hx
        rw [ClipboardModel.step, he] at hx
        rcases List.mem_cons.mp hx with rfl | hx
        · have hs := h.sound e (by simp [hsplit])
          exact ⟨hs.digest, hs.data, ht⟩
        · exact h.sound x (hmem x hx)
      · rw [ClipboardModel.step, he]
        have hd := h.digests
        rw [hsplit] at hd
        have hmiddle := (List.pairwise_middle fun hne => Ne.symm hne).mp hd
        exact List.pairwise_cons.mpr (List.pairwise_cons.mp hmiddle)
    · have hdata : data ≠ [] := by
        rw [inserts, Bool.and_eq_true, Bool.and_eq_true, accepts] at hins
        exact (of_decide_eq_true hins.1.1).1
      have hcons :
          Origin lib { m with entries := m.newEntry lib mime data timestamp :: m.entries } :=
        ⟨List.forall_mem_cons.mpr ⟨⟨rfl, hdata, ht⟩, h.sound⟩,
          List.pairwise_cons.mpr ⟨fun x hx => (hnew x hx).symm, h.digests⟩⟩
      exact hcons.of_sublist (by rw [ClipboardModel.step, he]; exact trimFrom_sublist 0)
  | setPinned id pinned =>
    rcases setPinned_cases id pinned (m := m) with ⟨-, he⟩ | ⟨e, l₁, l₂, hsplit, -, -, he, -⟩
    · rwa [ClipboardModel.step, he]
    · have hflag : Origin lib { m with entries := l₁ ++ { e with pinned } :: l₂ } := by
        constructor
        · intro x hx
          rcases List.mem_append.mp hx with hx | hx
          · exact h.sound x (by simp [hsplit, hx])
          · rcases List.mem_cons.mp hx with rfl | hx
            · have hs := h.sound e (by simp [hsplit])
              exact ⟨hs.digest, hs.data, hs.timestamp⟩
            · exact h.sound x (by simp [hsplit, hx])
        · have hd := h.digests
          rw [hsplit] at hd
          simpa [List.pairwise_append] using hd
      exact hflag.of_sublist (by rw [ClipboardModel.step, he]; exact trimFrom_sublist 0)
  | remove id => exact h.of_sublist List.eraseP_sublist
  | clear keepPinned =>
    refine h.of_sublist ?_
    rw [ClipboardModel.step, clear]
    split
    · exact List.filter_sublist
    · exact List.nil_sublist _
  | setLimit limit => exact ⟨h.sound, h.digests⟩
  | loadPinned json imageDir files =>
    obtain ⟨hempty, hjson⟩ := ht
    rw [ClipboardModel.step, loadPinned]
    cases hread : readItems lib imageDir files json with
    | none => exact h
    | some items =>
      have hpinned : ∀ e ∈ pinItems lib m.nextId items, e.pinned = true :=
        fun e he => (mem_pinItems lib he).1
      obtain ⟨taken, hsub, heq, hd⟩ := foldl_insertPinned hpinned (by simp) .nil
      have hsound : ∀ e ∈ pinItems lib m.nextId items, Sound lib e :=
        sound_pinItems fun item hitem => (sound_readItems hjson hread item hitem).2
      simp only [hempty, heq, List.nil_append]
      exact ⟨fun e he => hsound e (hsub.mem he), by simpa using hd⟩

/-! ### Writing -/

theorem isString_text (e : ClipboardEntry) : IsString (e.text lib) := by
  rw [ClipboardEntry.text]
  split
  · exact isString_nil
  · have hzero : 0 ∉ e.data.takeWhile (· ≠ 0) := fun h => by simpa using List.mem_takeWhile_imp h
    dsimp only
    split
    · next hv => exact ⟨hzero, hv⟩
    · exact lib.isString_makeValid _ hzero

/-- The text of an entry is its data when that is a string. -/
theorem text_eq {e : ClipboardEntry} (himage : isImage e.mime = false) (h : IsString e.data) :
    e.text lib = e.data := by
  have htake : e.data.takeWhile (· ≠ 0) = e.data :=
    List.takeWhile_eq_self_iff.mpr fun b hb => by simpa using fun h0 : b = 0 => h.1 (h0 ▸ hb)
  rw [ClipboardEntry.text, if_neg (by simp [himage])]
  simp only [htake, h.2, if_true]

/-- The bytes between two ASCII characters that come after the slash. -/
theorem ascii_of_between {b low high : UInt8} (hlow : low ≤ b) (hhigh : b ≤ high)
    (h47 : 47 < low.toNat) (h128 : high.toNat < 128) : b ≠ 0 ∧ b ≠ 47 ∧ b < 0x80 := by
  rw [UInt8.le_iff_toNat_le] at hlow hhigh
  refine ⟨fun h => ?_, fun h => ?_, UInt8.lt_iff_toNat_lt.mpr (by simpa using by omega)⟩
  · have : b.toNat = 0 := congrArg UInt8.toNat h
    omega
  · have : b.toNat = 47 := congrArg UInt8.toNat h
    omega

theorem ascii_imageFile {e : ClipboardEntry} (h : Sound lib e) :
    ∀ b ∈ imageFile e, b ≠ 0 ∧ b ≠ 47 ∧ b < 0x80 := by
  have hsuffix : ∀ b ∈ ofString ".img", b ≠ 0 ∧ b ≠ 47 ∧ b < 0x80 := by decide +kernel
  intro b hb
  rw [imageFile, h.digest] at hb
  rcases List.mem_append.mp hb with hb | hb
  · rcases lib.isHex_checksum _ b hb with hd | hd
    · have hdigit : 48 ≤ b ∧ b ≤ 57 := by simpa [isDigit] using hd
      exact ascii_of_between hdigit.1 hdigit.2 (by decide) (by decide)
    · exact ascii_of_between hd.1 hd.2 (by decide) (by decide)
  · exact hsuffix b hb

theorem imageFile_inj {e e' : ClipboardEntry} : imageFile e = imageFile e' ↔ e.digest = e'.digest :=
  List.append_left_inj _

theorem kept_pinnedToJson (h : Origin lib m) (imageDir : Text) (files : Text → Option Text)
    (hmime : ∀ e ∈ m.pinnedEntries, IsString e.mime) :
    Json.Kept (m.pinnedToJson lib imageDir files).1 := by
  have hnames : IsString (ofString "version") ∧ IsString (ofString "pinned") ∧
      IsString (ofString "mime") ∧ IsString (ofString "timestamp") ∧ IsString (ofString "file") ∧
      IsString (ofString "text") := by decide +kernel
  obtain ⟨hversion, hpinned, hmimeName, htimestamp, hfile, htext⟩ := hnames
  have hentry : ∀ e ∈ m.pinnedEntries, Json.All Json.Plain (entryToJson lib e) := by
    intro e he
    have hs := h.sound e (List.mem_of_mem_filter he)
    rw [entryToJson]
    split
    · refine .object ?_ ?_
      · simpa using ⟨hmimeName, htimestamp, hfile⟩
      · have hf : IsString (imageFile e) := isString_of_ascii fun b hb =>
          ⟨(ascii_imageFile hs b hb).1, (ascii_imageFile hs b hb).2.2⟩
        simpa using ⟨.string (hmime e he), .int hs.timestamp, .string hf⟩
    · refine .object ?_ ?_
      · simpa using ⟨hmimeName, htimestamp, htext⟩
      · simpa using ⟨.string (hmime e he), .int hs.timestamp, .string (isString_text e)⟩
  refine .object ?_ ?_
  · simpa using ⟨hversion, hpinned⟩
  · have harray : Json.All Json.Plain (.array (m.pinnedEntries.map (entryToJson lib))) :=
      .array (List.forall_mem_map.mpr hentry)
    have hone : Json.All Json.Plain (.int 1) := .int ⟨by decide, by decide⟩
    simpa using ⟨hone, harray⟩

/-! ### The files of the images -/

theorem file_inj {e e' : ClipboardEntry} (h : Sound lib e) (h' : Sound lib e') (imageDir : Text) :
    buildFilename imageDir (imageFile e) = buildFilename imageDir (imageFile e') ↔
      e.digest = e'.digest := by
  have hne : ∀ x : ClipboardEntry, imageFile x ≠ [] := fun x => by simp [imageFile, ofString]
  rw [buildFilename_inj (hne e) (fun hb => (ascii_imageFile h 47 hb).2.1 rfl) (hne e')
    (fun hb => (ascii_imageFile h' 47 hb).2.1 rfl), imageFile_inj]

/-- Every image is in its file after the loop. -/
theorem foldl_writeImage {entries : List ClipboardEntry} (hs : ∀ e ∈ entries, Sound lib e)
    (hd : entries.Pairwise (·.digest ≠ ·.digest)) (imageDir : Text) {e : ClipboardEntry}
    (he : e ∈ entries) (himage : isImage e.mime = true) (files : Text → Option Text) :
    entries.foldl (writeImage imageDir) files (buildFilename imageDir (imageFile e)) =
      some e.data := by
  -- What the loop does not write stays.
  have hkeep : ∀ (l : List ClipboardEntry) (files : Text → Option Text),
      (∀ x ∈ l, Sound lib x ∧ e.digest ≠ x.digest) → Sound lib e →
      l.foldl (writeImage imageDir) files (buildFilename imageDir (imageFile e)) =
        files (buildFilename imageDir (imageFile e)) := by
    intro l
    induction l with
    | nil => exact fun _ _ _ => rfl
    | cons x l ih =>
      intro files hl hse
      obtain ⟨hsx, hne⟩ := hl x (by simp)
      rw [List.foldl_cons, ih _ (fun y hy => hl y (by simp [hy])) hse, writeImage]
      split
      · exact if_neg fun heq => hne ((file_inj hse hsx imageDir).mp heq)
      · rfl
  induction entries generalizing files with
  | nil => cases he
  | cons x l ih =>
    obtain ⟨hx, hl⟩ := List.pairwise_cons.mp hd
    rw [List.foldl_cons]
    rcases List.mem_cons.mp he with rfl | he
    · rw [hkeep l _ (fun y hy => ⟨hs y (by simp [hy]), hx y hy⟩) (hs e (by simp)), writeImage,
        if_pos himage]
      exact if_pos rfl
    · exact ih (fun y hy => hs y (by simp [hy])) hl he _

theorem writeImages_image (h : Origin lib m) (imageDir : Text) (files : Text → Option Text)
    {e : ClipboardEntry} (he : e ∈ m.pinnedEntries) (himage : isImage e.mime = true) :
    m.writeImages imageDir files (buildFilename imageDir (imageFile e)) = some e.data :=
  foldl_writeImage (fun x hx => h.sound x (List.mem_of_mem_filter hx))
    (h.digests.sublist List.filter_sublist) imageDir he himage files

/-! ### Reading -/

theorem read_head (e : ClipboardEntry) (rest : List (Text × Json)) :
    lib.stringOr "mime" ([(ofString "mime", .string e.mime),
      (ofString "timestamp", .int e.timestamp)] ++ rest) plainMime = e.mime ∧
    lib.intOr "timestamp" ([(ofString "mime", .string e.mime),
      (ofString "timestamp", .int e.timestamp)] ++ rest) 0 = e.timestamp := by
  constructor
  · exact Json.Library.stringOr_of_lookup List.lookup_cons_self
  · refine Json.Library.intOr_of_lookup ?_
    simp (disch := decide) only [List.cons_append, Json.lookup_cons_of_ne, List.lookup_cons_self]

/-- What the element of an entry reads back as: the entry, with the text in place of the data of one
that is no image. -/
def entryItem (lib : Library) (e : ClipboardEntry) : Option (Text × Text × ℤ) :=
  if isImage e.mime then some (e.mime, e.data, e.timestamp)
  else if e.text lib = [] then none else some (e.mime, e.text lib, e.timestamp)

theorem readItem_entryToJson (h : Origin lib m) (imageDir : Text) (files : Text → Option Text)
    {e : ClipboardEntry} (he : e ∈ m.pinnedEntries) :
    readItem lib imageDir (m.writeImages imageDir files) (entryToJson lib e) = entryItem lib e := by
  have hs := h.sound e (List.mem_of_mem_filter he)
  have hname : basename (imageFile e) = imageFile e :=
    basename_eq_self (by simp [imageFile, ofString]) fun hb => (ascii_imageFile hs 47 hb).2.1 rfl
  rw [entryToJson, entryItem]
  split
  · next himage =>
    refine readItem_eq_some_iff.mpr ⟨e.data, ?_, hs.data, ?_⟩
    · simp (disch := decide) only [readData, List.cons_append, List.nil_append,
        Json.lookup_cons_of_ne, List.lookup_nil, List.lookup_cons_self]
      rw [lib.getString_string, hname]
      exact writeImages_image h imageDir files he himage
    · rw [(read_head e _).1, (read_head e _).2]
  · next himage =>
    have hdata : readData lib imageDir (m.writeImages imageDir files)
        ([(ofString "mime", .string e.mime), (ofString "timestamp", .int e.timestamp)] ++
          [(ofString "text", .string (e.text lib))]) = some (e.text lib) := by
      simp (disch := decide) only [readData, List.cons_append, List.nil_append,
        Json.lookup_cons_of_ne, List.lookup_cons_self]
      rw [lib.getString_string]
    rw [readItem, hdata]
    dsimp only
    rw [(read_head e _).1, (read_head e _).2]

/-- The items that a new history reads from what an old one has written. -/
theorem readItems_pinnedToJson (h : Origin lib m) (imageDir : Text) (files : Text → Option Text)
    (hmime : ∀ e ∈ m.pinnedEntries, IsString e.mime) :
    readItems lib imageDir (m.pinnedToJson lib imageDir files).2
        (lib.reparse (m.pinnedToJson lib imageDir files).1) =
      some (m.pinnedEntries.filterMap (entryItem lib)) := by
  have hlookup : List.lookup (ofString "pinned") [(ofString "version", Json.int 1),
      (ofString "pinned", Json.array (m.pinnedEntries.map (entryToJson lib)))] =
        some (Json.array (m.pinnedEntries.map (entryToJson lib))) := by
    simp (disch := decide) only [Json.lookup_cons_of_ne, List.lookup_cons_self]
  rw [lib.reparse_of_kept _ (kept_pinnedToJson h imageDir files hmime)]
  simp only [pinnedToJson, readItems, hlookup, Option.map_some, lib.getElements_array,
    List.filterMap_map]
  refine congrArg some (List.filterMap_congr fun e he => ?_)
  exact readItem_entryToJson h imageDir files he

theorem map_saved_pinItems (items : List (Text × Text × ℤ)) (nextId : UInt32) :
    (pinItems lib nextId items).map (·.saved) = items.map fun item =>
      (item.1, item.2.1, lib.checksum item.2.1, item.2.2, true) := by
  induction items generalizing nextId with
  | nil => rfl
  | cons item items ih => rw [pinItems, List.map_cons, ih]; rfl

/-- Entries with different contents are all taken. -/
theorem foldl_insertPinned_eq (entries : List ClipboardEntry) {new : List ClipboardEntry}
    (hd : (entries ++ new).Pairwise (·.digest ≠ ·.digest)) :
    new.foldl insertPinned entries = entries ++ new := by
  induction new generalizing entries with
  | nil => simp
  | cons e new ih =>
    have hnew : entries.any (·.digest = e.digest) = false := by
      have := (List.pairwise_append.mp hd).2.2
      simpa using fun x hx => this x hx e (by simp)
    rw [List.foldl_cons, insertPinned, hnew]
    simpa using ih (entries ++ [e]) (by simpa using hd)

/-- Every entry that is loaded is one of the items. -/
theorem mem_loadPinned {json : Option Json} {imageDir : Text} {files : Text → Option Text}
    {e : ClipboardEntry} (he : e ∈ (loadPinned lib {} json imageDir files).entries) :
    ∃ items, readItems lib imageDir files json = some items ∧
      ∃ item ∈ items, e.mime = item.1 ∧ e.data = item.2.1 := by
  rw [loadPinned] at he
  cases hread : readItems lib imageDir files json with
  | none => simp [hread] at he
  | some items =>
    rw [hread] at he
    have hpinned : ∀ e ∈ pinItems lib 1 items, e.pinned = true :=
      fun e he => (mem_pinItems lib he).1
    obtain ⟨taken, hsub, heq, -⟩ := foldl_insertPinned hpinned (by simp) .nil
    have htaken : e ∈ taken := by simpa [heq] using he
    obtain ⟨-, -, item, hitem, hmime, hdata, -⟩ := mem_pinItems lib (hsub.mem htaken)
    exact ⟨items, rfl, item, hitem, hmime, hdata⟩

/-- What is loaded is storable. -/
theorem storable_of_roundTrips (h : Origin lib m) {imageDir : Text} {files : Text → Option Text}
    (hround : RoundTrips lib imageDir files m) : Storable m := by
  -- The item from which an entry comes back.
  have hitem : ∀ e ∈ m.pinnedEntries, ∃ items,
      readItems lib imageDir (m.pinnedToJson lib imageDir files).2
        (lib.reparse (m.pinnedToJson lib imageDir files).1) = some items ∧
      ∃ item ∈ items, e.mime = item.1 ∧ e.data = item.2.1 := by
    intro e he
    have hsaved : e.saved ∈ m.pinnedEntries.map (·.saved) := List.mem_map_of_mem he
    rw [← (hround : _ = m.pinnedEntries.map (·.saved))] at hsaved
    obtain ⟨x, hx, heq⟩ := List.mem_map.mp hsaved
    obtain ⟨items, hread, item, hi, hmime, hdata⟩ := mem_loadPinned hx
    have hmime' : x.mime = e.mime := congrArg Prod.fst heq
    have hdata' : x.data = e.data := congrArg (·.2.1) heq
    exact ⟨items, hread, item, hi, hmime' ▸ hmime, hdata' ▸ hdata⟩
  have hmime : ∀ e ∈ m.pinnedEntries, IsString e.mime := by
    intro e he
    obtain ⟨items, hread, item, hi, hm, -⟩ := hitem e he
    exact hm ▸ (sound_readItems (fun node hn => lib.proper_reparse _ node hn) hread item hi).1
  intro e he
  refine ⟨hmime e he, ?_⟩
  obtain ⟨items, hread, item, hi, hm, hd⟩ := hitem e he
  rw [readItems_pinnedToJson h imageDir files hmime] at hread
  obtain rfl := Option.some.inj hread
  obtain ⟨e', -, he'⟩ := List.mem_filterMap.mp hi
  rw [entryItem] at he'
  split at he'
  · next himage =>
    obtain rfl := Option.some.inj he'
    exact .inl (hm ▸ himage)
  · split at he'
    · cases he'
    · obtain rfl := Option.some.inj he'
      exact .inr (hd ▸ isString_text e')

theorem roundTrips_of_storable (h : Origin lib m) {imageDir : Text} {files : Text → Option Text}
    (hstore : Storable m) : RoundTrips lib imageDir files m := by
  have hitems : m.pinnedEntries.filterMap (entryItem lib) =
      m.pinnedEntries.map fun e => (e.mime, e.data, e.timestamp) := by
    rw [← List.filterMap_eq_map]
    refine List.filterMap_congr fun e he => ?_
    have hs := h.sound e (List.mem_of_mem_filter he)
    cases himage : isImage e.mime with
    | true => simp [entryItem, himage]
    | false =>
      have hdata : IsString e.data := by simpa [himage] using (hstore e he).2
      simp [entryItem, himage, text_eq himage hdata, hs.data]
  have hsaved : (pinItems lib 1 (m.pinnedEntries.map fun e =>
      (e.mime, e.data, e.timestamp))).map (·.saved) = m.pinnedEntries.map (·.saved) := by
    rw [map_saved_pinItems, List.map_map]
    refine List.map_congr_left fun e he => ?_
    have hs := h.sound e (List.mem_of_mem_filter he)
    have hp : e.pinned = true := (List.mem_filter.mp he).2
    simp [ClipboardEntry.saved, hs.digest, hp]
  have hdigests : (pinItems lib 1 (m.pinnedEntries.map fun e =>
      (e.mime, e.data, e.timestamp))).Pairwise (·.digest ≠ ·.digest) := by
    have hold : (m.pinnedEntries.map (·.saved)).Pairwise (·.2.2.1 ≠ ·.2.2.1) :=
      List.pairwise_map.mpr (h.digests.sublist List.filter_sublist)
    rw [← hsaved] at hold
    have hnew := List.pairwise_map.mp hold
    exact hnew
  have hread := readItems_pinnedToJson h imageDir files fun e he => (hstore e he).1
  rw [hitems] at hread
  show List.map _ (loadPinned lib {} (lib.reparse (m.pinnedToJson lib imageDir files).1) imageDir
    (m.pinnedToJson lib imageDir files).2).entries = _
  rw [loadPinned, hread]
  exact (congrArg _ (foldl_insertPinned_eq [] hdigests)).trans hsaved

end

/-- **When pinned entries survive a restart**: exactly when the mime types are UTF-8 and the data of
every entry that is no image is a C string in UTF-8. -/
theorem pinned_roundTrips_iff (lib : Library) (ops : List Op) (h : Guarded (step lib) Typed {} ops)
    (imageDir : Text) (files : Text → Option Text) :
    RoundTrips lib imageDir files (run (step lib) {} ops) ↔ Storable (run (step lib) {} ops) := by
  have horigin : Origin lib (run (step lib) {} ops) :=
    h.invariant (fun m op hm ht => hm.step ht) ⟨by simp, .nil⟩
  exact ⟨storable_of_roundTrips horigin, roundTrips_of_storable horigin⟩

/-- A text with a zero byte, pinned. -/
def zeroByte : List Op :=
  [.add (ofString "text/plain") [97, 0, 98] 1, .setPinned 1 true]

theorem typed_zeroByte : Guarded (step plainLibrary) Typed {} zeroByte :=
  ⟨⟨by decide, by decide⟩, trivial, trivial⟩

theorem pinned_roundTrips_iff_zeroByte :
    RoundTrips plainLibrary [] (fun _ => none) (run (step plainLibrary) {} zeroByte) ↔
      Storable (run (step plainLibrary) {} zeroByte) :=
  pinned_roundTrips_iff plainLibrary zeroByte typed_zeroByte [] fun _ => none

/-- What comes after the zero byte is lost. -/
theorem not_pinned_roundTrips : ¬∀ (lib : Library) (ops : List Op) (imageDir : Text)
    (files : Text → Option Text), Guarded (step lib) Typed {} ops →
      RoundTrips lib imageDir files (run (step lib) {} ops) := by
  intro h
  have hround := h plainLibrary zeroByte [] (fun _ => none) typed_zeroByte
  have horigin : Origin plainLibrary (run (step plainLibrary) {} zeroByte) :=
    typed_zeroByte.invariant (fun m op hm ht => hm.step ht) ⟨by simp, .nil⟩
  have hstore := storable_of_roundTrips horigin hround
  exact absurd hstore (by decide +kernel)

end Clipboard

end SingularityShell
