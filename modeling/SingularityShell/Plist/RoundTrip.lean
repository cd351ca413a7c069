import SingularityShell.Plist.Decode

/-!
# Reading a whole file

The reader against the format, for arrays, dictionaries and files.

## Main definitions

* `Plist.Found` — the object of a reference is read as a value
* `Plist.inserted` — the members of a dictionary as the reader collects them

## Main results

* `Plist.Holds.exists_read` — every object that encodes a value is read
* `Plist.parse_eq_iff` — a file is read as the value that it encodes exactly when all its scalars
  are understood -/

namespace SingularityShell

namespace Plist

open Ascii Machine Traced

variable {data : Data} {t : Layout} {object : ℤ → Reader Value} {pos : ℕ} {bytes : List UInt8}

/-! ### References -/

/-- The numbers of a layout as the reader holds them. -/
def Layout.trailer (t : Layout) : Trailer := ⟨t.offsetSize, t.refSize, t.numObjects, t.tableOffset⟩

/-- The offset table is in the file. -/
def Layout.Inside (t : Layout) (data : Data) : Prop :=
  t.tableOffset + t.numObjects * t.offsetSize ≤ data.val.length

theorem Layout.Inside.numObjects_le (h : t.Inside data) : t.numObjects ≤ data.val.length := by
  have hsize := t.offsetSize_range.1
  have hmul := Nat.mul_le_mul_left t.numObjects hsize
  rw [Layout.Inside] at h
  omega

theorem offsetOf_entry {index : ℕ} (ht : t.Inside data) (h : Entry data t index pos)
    (hpos : pos < 2 ^ 63) : (offsetOf data t.trailer index).result = .ok (pos : ℤ) := by
  have hlen := data.property
  have hle := ht.numObjects_le
  have hlisted := h.listed
  have hmul : index * t.offsetSize ≤ t.numObjects * t.offsetSize :=
    Nat.mul_le_mul_right _ hlisted.le
  have hinside := ht
  rw [Layout.Inside] at hinside
  have hread := readUint_at_of_lt h.stands (by have := t.offsetSize_range; omega) h.fits (by omega)
  have hwrap : wrap64 (t.trailer.tableOffset + wrap64 ((index : ℤ) * t.trailer.offsetSize)) =
      ((t.tableOffset + index * t.offsetSize : ℕ) : ℤ) := by
    show wrap64 ((t.tableOffset : ℤ) + wrap64 ((index : ℤ) * (t.offsetSize : ℤ))) = _
    rw [← Nat.cast_mul, wrap64_eq (x := ((index * t.offsetSize : ℕ) : ℤ)) (by omega) (by omega),
      wrap64_eq (by omega) (by omega)]
    push_cast
    rfl
  have hrange : ¬((index : ℤ) < 0 ∨ (index : ℤ) ≥ t.trailer.numObjects) := by
    show ¬((index : ℤ) < 0 ∨ (index : ℤ) ≥ (t.numObjects : ℤ))
    omega
  rw [offsetOf, if_neg hrange, hwrap]
  refine (result_bind hread _).trans ?_
  rw [pure_def, wrap64_eq (by omega) (by omega)]

theorem Refs.length_lt {refs : List ℕ} (h : Refs t refs bytes) (hat : At data pos bytes) :
    refs.length < 2 ^ 31 := by
  have hle := hat.length_le_data
  have hmul := Nat.le_mul_of_pos_right refs.length t.refSize_range.1
  rw [h.bytes, length_flatMap_be] at hle
  exact lt_of_le_of_lt (hmul.trans hle) data.property

/-- The reference at a place of a list. -/
theorem readRef_at (object : ℤ → Reader Value) {refs : List ℕ} {i r : ℕ} (h : Refs t refs bytes)
    (hat : At data pos bytes)
    (hi : refs[i]? = some r) (hr : r < 2 ^ 63) :
    (readRef data t.trailer object pos i).result = (object r).result := by
  have hlen := data.property
  obtain ⟨hlt, hget⟩ := List.getElem?_eq_some_iff.mp hi
  have hsplit : refs = refs.take i ++ r :: refs.drop (i + 1) := by
    rw [← hget, List.getElem_cons_drop, List.take_append_drop]
  have hbytes := h.bytes
  rw [hsplit, List.flatMap_append, List.flatMap_cons] at hbytes
  rw [hbytes] at hat
  have hstands := hat.append.2.append.1
  rw [length_flatMap_be, List.length_take, min_eq_left hlt.le] at hstands
  have hle := hstands.length_le (by
    intro he
    have := congrArg List.length he
    rw [length_be, List.length_nil] at this
    have := t.refSize_range
    omega)
  rw [length_be] at hle
  have hread := readUint_at_of_lt hstands (by have := t.refSize_range; omega)
    (h.fits r (List.mem_of_getElem? hi)) (by omega)
  have hwrap : wrap64 ((pos : ℤ) + wrap64 ((i : ℤ) * t.trailer.refSize)) =
      ((pos + i * t.refSize : ℕ) : ℤ) := by
    show wrap64 ((pos : ℤ) + wrap64 ((i : ℤ) * (t.refSize : ℤ))) = _
    rw [← Nat.cast_mul, wrap64_eq (x := ((i * t.refSize : ℕ) : ℤ)) (by omega) (by omega),
      wrap64_eq (by omega) (by omega)]
    push_cast
    rfl
  rw [readRef, hwrap]
  refine (result_bind hread _).trans ?_
  rw [wrap64_eq (by omega) (by omega)]

/-- The object of a reference is read as a value. -/
def Found (object : ℤ → Reader Value) (r : ℕ) (v : Value) : Prop :=
  r < 2 ^ 63 ∧ (object r).result = .ok v

/-- The loop over an array. -/
theorem readItems_at {refs : List ℕ} {items : List Value} (h : Refs t refs bytes)
    (hat : At data pos bytes) {i : ℕ} (hitems : List.Forall₂ (Found object) (refs.drop i) items) :
    (readItems data t.trailer object pos items.length i).result = .ok items := by
  induction items generalizing i with
  | nil => rfl
  | cons v items ih =>
    obtain ⟨r, rest, hfound, hrest, hdrop⟩ := List.forall₂_cons_right_iff.mp hitems
    have hi : refs[i]? = some r := by rw [← List.head?_drop, hdrop, List.head?_cons]
    have hnext : refs.drop (i + 1) = rest := by rw [← List.tail_drop, hdrop, List.tail_cons]
    have hread := (readRef_at object h hat hi hfound.1).trans hfound.2
    have ih := ih (i := i + 1) (hnext ▸ hrest)
    rw [Nat.cast_add_one] at ih
    rw [List.length_cons, readItems]
    exact (result_bind hread _).trans ((result_bind ih _).trans rfl)

/-- The members that are inserted one after the other. -/
def inserted (members : List (Text × Value)) (kvs : List (Value × Value)) : List (Text × Value) :=
  kvs.foldl (fun members kv => insert members kv.1.text kv.2) members

/-- The loop over a dictionary. -/
theorem readMembers_at {keyRefs valRefs : List ℕ} {keys vals : List Value}
    (h : Refs t (keyRefs ++ valRefs) bytes) (hat : At data pos bytes) {i : ℕ}
    (hkeys : List.Forall₂ (Found object) (keyRefs.drop i) keys)
    (hvals : List.Forall₂ (Found object) (valRefs.drop i) vals) (hlen : keys.length = vals.length)
    (members : List (Text × Value)) :
    (readMembers data t.trailer object pos keyRefs.length keys.length i members).result =
      .ok (inserted members (keys.zip vals)) := by
  induction keys generalizing i vals members with
  | nil => rfl
  | cons k keys ih =>
    obtain ⟨v, vals, rfl⟩ := List.exists_cons_of_length_eq_add_one hlen.symm
    obtain ⟨kr, krest, hkey, hkrest, hkdrop⟩ := List.forall₂_cons_right_iff.mp hkeys
    obtain ⟨vr, vrest, hval, hvrest, hvdrop⟩ := List.forall₂_cons_right_iff.mp hvals
    have hki : keyRefs[i]? = some kr := by rw [← List.head?_drop, hkdrop, List.head?_cons]
    have hvi : valRefs[i]? = some vr := by rw [← List.head?_drop, hvdrop, List.head?_cons]
    have hknext : keyRefs.drop (i + 1) = krest := by rw [← List.tail_drop, hkdrop, List.tail_cons]
    have hvnext : valRefs.drop (i + 1) = vrest := by rw [← List.tail_drop, hvdrop, List.tail_cons]
    have hkplace : (keyRefs ++ valRefs)[i]? = some kr := by
      rw [List.getElem?_append_left (List.getElem?_eq_some_iff.mp hki).1, hki]
    have hvplace : (keyRefs ++ valRefs)[keyRefs.length + i]? = some vr := by
      rw [List.getElem?_append_right (Nat.le_add_right _ _), Nat.add_sub_cancel_left, hvi]
    have hlt := h.length_lt hat
    have hki' := (List.getElem?_eq_some_iff.mp hki).1
    rw [List.length_append] at hlt
    have hwrap : wrap64 ((keyRefs.length : ℤ) + i) = ((keyRefs.length + i : ℕ) : ℤ) := by
      rw [wrap64_eq (by omega) (by omega)]
      push_cast
      rfl
    have hkread := (readRef_at object h hat hkplace hkey.1).trans hkey.2
    have hvread := (readRef_at object h hat hvplace hval.1).trans hval.2
    have ih := ih (i := i + 1) (hknext ▸ hkrest) (hvnext ▸ hvrest) (Nat.succ_injective hlen)
      (insert members k.text v)
    rw [Nat.cast_add_one] at ih
    rw [List.length_cons, readMembers, hwrap]
    exact (result_bind hkread _).trans ((result_bind hvread _).trans (ih.trans rfl))

/-- An array whose references are found. -/
theorem readObject_array {head tail : List UInt8} {refs : List ℕ} {items : List Value}
    (hat : At data pos (head ++ tail)) (hhead : Head 10 items.length head)
    (hrefs : Refs t refs tail)
    (hitems : List.Forall₂ (Found object) refs items) :
    (readObject data t.trailer object pos).result = .ok (.array items) := by
  obtain ⟨info, hobject, hcount⟩ :=
    readObject_counted t.trailer object (by omega) hhead hat
  have hread := readItems_at hrefs hat.append.2 (i := 0) hitems
  have hcount := hcount (by
    have hle := hrefs.length_lt hat.append.2
    rw [hitems.length_eq] at hle
    omega)
  have htype : readType data t.trailer object 10 info (pos + 1 : ℕ) =
      readArray data t.trailer object info (pos + 1 : ℕ) := rfl
  rw [hobject, htype, readArray]
  exact (result_bind hcount _).trans ((result_bind hread _).trans rfl)

/-- A dictionary whose references are found. -/
theorem readObject_dict {head tail : List UInt8} {keyRefs valRefs : List ℕ}
    {keys vals : List Value} (hat : At data pos (head ++ tail))
    (hhead : Head 13 keys.length head) (hrefs : Refs t (keyRefs ++ valRefs) tail)
    (hkeys : List.Forall₂ (Found object) keyRefs keys)
    (hvals : List.Forall₂ (Found object) valRefs vals) (hlen : keys.length = vals.length) :
    (readObject data t.trailer object pos).result = .ok (.dict (inserted [] (keys.zip vals))) := by
  obtain ⟨info, hobject, hcount⟩ :=
    readObject_counted t.trailer object (by omega) hhead hat
  have hread := readMembers_at hrefs hat.append.2 (i := 0) hkeys hvals hlen []
  rw [hkeys.length_eq] at hread
  have hcount := hcount (by
    have hle := hrefs.length_lt hat.append.2
    rw [List.length_append, hkeys.length_eq] at hle
    omega)
  have htype : readType data t.trailer object 13 info (pos + 1 : ℕ) =
      readDict data t.trailer object info (pos + 1 : ℕ) := rfl
  rw [hobject, htype, readDict]
  exact (result_bind hcount _).trans ((result_bind hread _).trans rfl)

/-! ### Inserting members -/

/-- A value with the text of its key. -/
def keyed (kv : Value × Value) : Text × Value := (kv.1.text, kv.2)

theorem insert_of_notMem {members : List (Text × Value)} {key : Text} {val : Value}
    (h : key ∉ members.map Prod.fst) : insert members key val = members ++ [(key, val)] :=
  if_neg (by simpa using h)

theorem length_insert_of_mem {members : List (Text × Value)} {key : Text} {val : Value}
    (h : key ∈ members.map Prod.fst) : (insert members key val).length = members.length := by
  rw [insert, if_pos (by simpa using h), List.length_map]

theorem length_insert_le (members : List (Text × Value)) (key : Text) (val : Value) :
    (insert members key val).length ≤ members.length + 1 := by
  by_cases h : key ∈ members.map Prod.fst
  · rw [length_insert_of_mem h]
    omega
  · rw [insert_of_notMem h, List.length_append, List.length_singleton]

theorem length_inserted_le (members : List (Text × Value)) (kvs : List (Value × Value)) :
    (inserted members kvs).length ≤ members.length + kvs.length := by
  induction kvs generalizing members with
  | nil => exact le_rfl
  | cons kv kvs ih =>
    have hle := ih (insert members kv.1.text kv.2)
    have hone := length_insert_le members kv.1.text kv.2
    rw [inserted, List.foldl_cons, List.length_cons]
    rw [inserted] at hle
    omega

/-- Members with different keys stay as they are. -/
theorem inserted_of_nodup {members : List (Text × Value)} {kvs : List (Value × Value)}
    (h : ((members ++ kvs.map keyed).map Prod.fst).Nodup) :
    inserted members kvs = members ++ kvs.map keyed := by
  induction kvs generalizing members with
  | nil => exact (List.append_nil _).symm
  | cons kv kvs ih =>
    have hfresh : kv.1.text ∉ members.map Prod.fst := by
      intro hmem
      rw [List.map_append] at h
      exact (List.nodup_append.mp h).2.2 _ hmem _ List.mem_cons_self rfl
    have hassoc : members ++ (kv :: kvs).map keyed = members ++ [keyed kv] ++ kvs.map keyed := by
      rw [List.map_cons, List.append_assoc, List.singleton_append]
    rw [hassoc] at h ⊢
    rw [inserted, List.foldl_cons, insert_of_notMem hfresh]
    exact ih h

/-- When no member is lost, no key came twice. -/
theorem inserted_of_length {members : List (Text × Value)} {kvs : List (Value × Value)}
    (h : (inserted members kvs).length = members.length + kvs.length) :
    inserted members kvs = members ++ kvs.map keyed := by
  induction kvs generalizing members with
  | nil => exact (List.append_nil _).symm
  | cons kv kvs ih =>
    have hle := length_inserted_le (insert members kv.1.text kv.2) kvs
    rw [inserted, List.foldl_cons] at h ⊢
    rw [inserted] at hle
    rw [List.length_cons] at h
    by_cases hmem : kv.1.text ∈ members.map Prod.fst
    · rw [length_insert_of_mem hmem] at hle
      omega
    · rw [insert_of_notMem hmem] at h ⊢
      have hrest : inserted (members ++ [(kv.1.text, kv.2)]) kvs =
          members ++ [(kv.1.text, kv.2)] ++ kvs.map keyed := ih (by
        rw [inserted, h, List.length_append, List.length_singleton]
        omega)
      rw [inserted] at hrest
      rw [hrest, List.append_assoc, List.singleton_append, List.map_cons, keyed]

/-! ### Objects that encode values -/

variable {ok : Form → Prop} {depth index : ℕ} {v : Value}

/-- The object of an index is the one at the position that the table gives. -/
theorem objectAt_entry (ht : t.Inside data) (h : Entry data t index pos)
    (hat : At data pos bytes) (hne : bytes ≠ []) :
    (objectAt data t.trailer (depth + 1) index).result =
      (readObject data t.trailer (objectAt data t.trailer depth) pos).result := by
  have hle := hat.length_le hne
  have hlen := data.property
  rw [objectAt]
  exact result_bind (offsetOf_entry ht h (by omega)) _

theorem Form.Bytes.ne_nil {form : Form} (h : form.Bytes bytes) : bytes ≠ [] := by
  cases h with
  | bool => exact List.cons_ne_nil _ _
  | int => exact List.cons_ne_nil _ _
  | ascii _ _ _ hhead => exact List.append_ne_nil_of_left_ne_nil hhead.ne_nil _
  | utf16 _ _ hhead => exact List.append_ne_nil_of_left_ne_nil hhead.ne_nil _

theorem Holds.index_lt (h : Holds data t ok depth index v) : index < t.numObjects := by
  cases h with
  | scalar hentry => exact hentry.listed
  | array hentry => exact hentry.listed
  | dict hentry => exact hentry.listed

theorem Holds.found (h : Holds data t ok depth index v) (ht : t.Inside data) {w : Value}
    (hr : (object index).result = .ok w) : Found object index w := by
  have hlt := h.index_lt
  have hle := ht.numObjects_le
  have hlen := data.property
  exact ⟨by omega, hr⟩

/-- References that are found one by one are found as a list. -/
theorem forall₂_found {α : Type} {refs : List ℕ} {vs : List α} (hlen : refs.length = vs.length)
    {w : ℕ × α → Value} (h : ∀ p ∈ refs.zip vs, Found object p.1 (w p)) :
    List.Forall₂ (Found object) refs ((refs.zip vs).map w) := by
  have hrefs : (refs.zip vs).map Prod.fst = refs := List.map_fst_zip hlen.le
  have hmap : List.Forall₂ (Found object) ((refs.zip vs).map Prod.fst) ((refs.zip vs).map w) := by
    rw [List.forall₂_map_left_iff, List.forall₂_map_right_iff]
    exact List.forall₂_same.mpr h
  rwa [hrefs] at hmap

/-- When the values that are found make up the list, each is the one of its place. -/
theorem eq_of_map_eq {α β : Type} {refs : List ℕ} {vs : List α} {w : ℕ × α → β} {g : α → β}
    (hlen : refs.length = vs.length) (h : (refs.zip vs).map w = vs.map g) :
    ∀ p ∈ refs.zip vs, w p = g p.2 := by
  have hvs : (refs.zip vs).map Prod.snd = vs := List.map_snd_zip hlen.ge
  have h' : (refs.zip vs).map w = (refs.zip vs).map fun p => g p.2 := by
    rw [h]
    conv_lhs => rw [← hvs, List.map_map]
    rfl
  exact List.map_inj_left.mp h'

theorem forall₂_found_map {α : Type} {refs : List ℕ} {vs : List α} (hlen : refs.length = vs.length)
    {g : α → Value} (h : ∀ p ∈ refs.zip vs, Found object p.1 (g p.2)) :
    List.Forall₂ (Found object) refs (vs.map g) := by
  have hvs : (refs.zip vs).map Prod.snd = vs := List.map_snd_zip hlen.ge
  have hfound := forall₂_found hlen h
  have hmap : (refs.zip vs).map (fun p => g p.2) = vs.map g := by
    conv_rhs => rw [← hvs, List.map_map]
    rfl
  rwa [hmap] at hfound

theorem map_keyed_zip (ks vs : List Value) :
    (ks.zip vs).map keyed = (ks.map Value.text).zip vs := by
  rw [List.zip_map_left]
  rfl

/-- **Every object that encodes a value is read, and when it is read as that value all its scalars
are understood.** -/
theorem Holds.exists_read (ht : t.Inside data) (h : Holds data t ok depth index v) :
    ∃ w, (objectAt data t.trailer (depth + 1) index).result = .ok w ∧
      (w = v → Holds data t Form.Plain depth index v) ∧
      ∀ text, v = .string text → ∃ text', w = .string text' := by
  have : Nonempty Value := ⟨.null⟩
  induction h with
  | @scalar depth index pos form bytes hentry hat hbytes hok =>
    refine ⟨form.decoded, ?_, fun hw => ?_, fun text htext => ?_⟩
    · rw [objectAt_entry ht hentry hat hbytes.ne_nil]
      exact readObject_scalar hbytes hat
    · exact .scalar hentry hat hbytes ((decoded_eq_meant_iff form).mp hw)
    · cases form with
      | bool => cases htext
      | int => cases htext
      | ascii => exact ⟨_, rfl⟩
      | utf16 => exact ⟨_, rfl⟩
  | @array depth index pos head tail refs items hentry hat hhead hrefs hlen hitems ih =>
    have hread : ∀ p ∈ refs.zip items, ∃ w,
        (objectAt data t.trailer (depth + 1) p.1).result = .ok w ∧
          (w = p.2 → Holds data t Form.Plain depth p.1 p.2) := by
      rintro ⟨r, v⟩ hp
      obtain ⟨w, hw, hplain, -⟩ := ih r v hp
      exact ⟨w, hw, hplain⟩
    choose! w hw hplain using hread
    have hfound := forall₂_found hlen fun p hp => (hitems p.1 p.2 hp).found ht (hw p hp)
    have hcount : ((refs.zip items).map w).length = items.length := by
      rw [List.length_map, List.length_zip, hlen, min_self]
    refine ⟨.array ((refs.zip items).map w), ?_, fun heq => ?_, fun text htext => by cases htext⟩
    · rw [objectAt_entry ht hentry hat (List.append_ne_nil_of_left_ne_nil hhead.ne_nil _)]
      exact readObject_array hat (hcount ▸ hhead) hrefs hfound
    · have hmap : (refs.zip items).map w = items.map id := by
        rw [List.map_id]
        exact Value.array.inj heq
      refine .array hentry hat hhead hrefs hlen fun r v hp => ?_
      exact hplain (r, v) hp (eq_of_map_eq hlen hmap (r, v) hp)
  | @dict depth index pos head tail keyRefs valRefs keys vals hentry hat hhead hrefs hkeyLen hvalLen
      hlen hdistinct hkeys hvals ihk ihv =>
    have hkread : ∀ p ∈ keyRefs.zip keys, ∃ text,
        (objectAt data t.trailer (depth + 1) p.1).result = .ok (.string text) ∧
          (text = p.2 → Holds data t Form.Plain depth p.1 (.string p.2)) := by
      rintro ⟨r, k⟩ hp
      obtain ⟨w, hw, hplain, hstring⟩ := ihk r k hp
      obtain ⟨text, rfl⟩ := hstring k rfl
      exact ⟨text, hw, fun h => hplain (congrArg Value.string h)⟩
    have hvread : ∀ p ∈ valRefs.zip vals, ∃ w,
        (objectAt data t.trailer (depth + 1) p.1).result = .ok w ∧
          (w = p.2 → Holds data t Form.Plain depth p.1 p.2) := by
      rintro ⟨r, v⟩ hp
      obtain ⟨w, hw, hplain, -⟩ := ihv r v hp
      exact ⟨w, hw, hplain⟩
    choose! text htext hkplain using hkread
    choose! w hw hvplain using hvread
    have hkfound := forall₂_found (w := fun p => .string (text p)) hkeyLen
      fun p hp => (hkeys p.1 p.2 hp).found ht (htext p hp)
    have hvfound := forall₂_found hvalLen fun p hp => (hvals p.1 p.2 hp).found ht (hw p hp)
    obtain ⟨ks, hks⟩ : ∃ ks, ks = (keyRefs.zip keys).map fun p => Value.string (text p) := ⟨_, rfl⟩
    obtain ⟨vs, hvs⟩ : ∃ vs, vs = (valRefs.zip vals).map w := ⟨_, rfl⟩
    rw [← hks] at hkfound
    rw [← hvs] at hvfound
    have hkcount : ks.length = keys.length := hkfound.length_eq.symm.trans hkeyLen
    have hvcount : vs.length = vals.length := hvfound.length_eq.symm.trans hvalLen
    refine ⟨.dict (inserted [] (ks.zip vs)), ?_, fun heq => ?_, fun text htext => by cases htext⟩
    · rw [objectAt_entry ht hentry hat (List.append_ne_nil_of_left_ne_nil hhead.ne_nil _)]
      exact readObject_dict hat (hkcount ▸ hhead) hrefs hkfound hvfound
        (hkcount.trans (hlen.trans hvcount.symm))
    · have hins : inserted [] (ks.zip vs) = keys.zip vals := Value.dict.inj heq
      have hmembers : (ks.map Value.text).zip vs = keys.zip vals := by
        rw [← map_keyed_zip, ← hins]
        refine ((inserted_of_length ?_).trans (List.nil_append _)).symm
        rw [hins, List.length_nil, Nat.zero_add, List.length_zip, List.length_zip, hkcount, hvcount]
      have hlenText : (ks.map Value.text).length = vs.length := by
        rw [List.length_map, hkcount, hlen, hvcount]
      have hkmap : (keyRefs.zip keys).map text = keys.map id := by
        have hfst := congrArg (List.map Prod.fst) hmembers
        rw [List.map_fst_zip hlenText.le, List.map_fst_zip hlen.le, hks, List.map_map] at hfst
        rw [List.map_id]
        exact hfst
      have hvmap : (valRefs.zip vals).map w = vals.map id := by
        have hsnd := congrArg (List.map Prod.snd) hmembers
        rw [List.map_snd_zip hlenText.ge, List.map_snd_zip hlen.ge, hvs] at hsnd
        rw [List.map_id]
        exact hsnd
      refine .dict hentry hat hhead hrefs hkeyLen hvalLen hlen hdistinct (fun r k hp => ?_)
        fun r v hp => ?_
      · exact hkplain (r, k) hp (eq_of_map_eq hkeyLen hkmap (r, k) hp)
      · exact hvplain (r, v) hp (eq_of_map_eq hvalLen hvmap (r, v) hp)

/-- **An object whose scalars are all understood is read as the value that it encodes.** -/
theorem Holds.read (ht : t.Inside data) (h : Holds data t Form.Plain depth index v) :
    (objectAt data t.trailer (depth + 1) index).result = .ok v := by
  induction h with
  | @scalar depth index pos form bytes hentry hat hbytes hok =>
    rw [objectAt_entry ht hentry hat hbytes.ne_nil, ← (decoded_eq_meant_iff form).mpr hok]
    exact readObject_scalar hbytes hat
  | @array depth index pos head tail refs items hentry hat hhead hrefs hlen hitems ih =>
    have hfound := forall₂_found_map (g := id) hlen
      fun p hp => (hitems p.1 p.2 hp).found ht (ih p.1 p.2 hp)
    rw [List.map_id] at hfound
    rw [objectAt_entry ht hentry hat (List.append_ne_nil_of_left_ne_nil hhead.ne_nil _)]
    exact readObject_array hat hhead hrefs hfound
  | @dict depth index pos head tail keyRefs valRefs keys vals hentry hat hhead hrefs hkeyLen hvalLen
      hlen hdistinct hkeys hvals ihk ihv =>
    have hkfound := forall₂_found_map (g := Value.string) hkeyLen
      fun p hp => (hkeys p.1 p.2 hp).found ht (ihk p.1 p.2 hp)
    have hvfound := forall₂_found_map (g := id) hvalLen
      fun p hp => (hvals p.1 p.2 hp).found ht (ihv p.1 p.2 hp)
    rw [List.map_id] at hvfound
    have htexts : (keys.map Value.string).map Value.text = keys := by
      rw [List.map_map]
      exact List.map_id keys
    have hmembers : inserted [] ((keys.map Value.string).zip vals) = keys.zip vals := by
      rw [inserted_of_nodup, List.nil_append, map_keyed_zip, htexts]
      rw [List.nil_append, map_keyed_zip, htexts, List.map_fst_zip hlen.le]
      exact hdistinct
    rw [objectAt_entry ht hentry hat (List.append_ne_nil_of_left_ne_nil hhead.ne_nil _), ← hmembers]
    exact readObject_dict hat ((List.length_map _).symm ▸ hhead) hrefs hkfound hvfound
      ((List.length_map _).trans hlen)

/-! ### Files -/

theorem toNat_toUInt8 {n : ℕ} (h : n < 256) : n.toUInt8.toNat = n := by
  rw [Nat.toUInt8_eq, UInt8.toNat_ofNat', Nat.mod_eq_of_lt h]

/-- A file whose trailer is read comes to its top object. -/
theorem parse_of_trailer {start n top table : ℕ} {offsetSize refSize : UInt8}
    (hmagic : ¬(data.val.length < 40 ∨ data.val.take 8 ≠ ofString "bplist00"))
    (hstart : (data.val.length : ℤ) - 32 = start)
    (hoffset : (byte data (start + 6)).result = .ok offsetSize)
    (href : (byte data (start + 7)).result = .ok refSize)
    (hn : (readUint data (start + 8) 8).result = .ok n)
    (htop : (readUint data (start + 16) 8).result = .ok top)
    (htable : (readUint data (start + 24) 8).result = .ok table)
    (hsizes : ¬(offsetSize.toNat < 1 ∨ offsetSize.toNat > 8 ∨ refSize.toNat < 1 ∨
      refSize.toNat > 8))
    (hplaces : ¬(wrap64 (wrap64 table + wrap64 (wrap64 n * offsetSize.toNat)) > start ∨
      wrap64 top ≥ wrap64 n)) :
    (parse data).result =
      (objectAt data ⟨offsetSize.toNat, refSize.toNat, wrap64 n, wrap64 table⟩ 64
        (wrap64 top)).result := by
  rw [parse, if_neg hmagic, hstart]
  dsimp only
  refine result_of_bind hoffset rfl (result_of_bind href rfl ?_)
  refine result_of_bind hn rfl (result_of_bind htop rfl (result_of_bind htable rfl ?_))
  rw [if_neg hsizes, if_neg hplaces]

/-- The trailer of a file is read. -/
theorem parse_at {top : ℕ} (header : At data 0 (ofString "bplist00")) (htable : 8 ≤ t.tableOffset)
    (htop : top < t.numObjects)
    (hend : t.tableOffset + t.numObjects * t.offsetSize + 32 ≤ data.val.length)
    (htrailer : At data (data.val.length - 32 + 6) (t.offsetSize.toUInt8 :: t.refSize.toUInt8 ::
      (be 8 t.numObjects ++ (be 8 top ++ be 8 t.tableOffset)))) :
    (parse data).result = (objectAt data t.trailer 64 top).result := by
  have hlen := data.property
  have hsize := t.offsetSize_range
  have href := t.refSize_range
  have hinside : t.Inside data := by
    rw [Layout.Inside]
    omega
  have hcount := hinside.numObjects_le
  have hlarge : 40 ≤ data.val.length := by omega
  have hbound : t.tableOffset + t.numObjects * t.offsetSize < 2 ^ 63 := by omega
  have hnumLt : t.numObjects < 2 ^ 63 := by omega
  have htopLt : top < 2 ^ 63 := by omega
  have htableLt : t.tableOffset < 2 ^ 63 := by omega
  obtain ⟨start, hstart⟩ : ∃ start, start = data.val.length - 32 := ⟨_, rfl⟩
  have hstart' : (data.val.length : ℤ) - 32 = start := by omega
  have hplaces : ¬(((t.tableOffset + t.numObjects * t.offsetSize : ℕ) : ℤ) > start ∨
      (top : ℤ) ≥ t.numObjects) := by omega
  rw [← hstart] at htrailer
  have hwide := htrailer.tail.tail
  have hnum := hwide.append.1
  have htopAt := hwide.append.2.append.1
  have htableAt := hwide.append.2.append.2
  rw [length_be] at htopAt htableAt
  rw [length_be] at htableAt
  have hread₁ : (readUint data (start + 8) 8).result = .ok t.numObjects :=
    readUint_at_of_lt hnum (by omega) (by omega) (by omega)
  have hread₂ : (readUint data (start + 16) 8).result = .ok top :=
    readUint_at_of_lt htopAt (by omega) (by omega) (by omega)
  have hread₃ : (readUint data (start + 24) 8).result = .ok t.tableOffset :=
    readUint_at_of_lt htableAt (by omega) (by omega) (by omega)
  have hmagic : ¬(data.val.length < 40 ∨ data.val.take 8 ≠ ofString "bplist00") := by
    have hprefix := List.prefix_iff_eq_take.mp header
    rw [List.drop_zero] at hprefix
    exact not_or.mpr ⟨not_lt.mpr hlarge, not_not.mpr hprefix.symm⟩
  have hproduct :
      wrap64 ((t.numObjects : ℤ) * t.offsetSize) = (t.numObjects * t.offsetSize : ℕ) := by
    rw [← Nat.cast_mul, wrap64_natCast (lt_of_le_of_lt (Nat.le_add_left _ _) hbound)]
  have hsum : wrap64 ((t.tableOffset : ℤ) + (t.numObjects * t.offsetSize : ℕ)) =
      (t.tableOffset + t.numObjects * t.offsetSize : ℕ) := by
    rw [← Nat.cast_add, wrap64_natCast hbound]
  have hoffset : t.offsetSize.toUInt8.toNat = t.offsetSize := toNat_toUInt8 (by omega)
  have href' : t.refSize.toUInt8.toNat = t.refSize := toNat_toUInt8 (by omega)
  have hparse := parse_of_trailer hmagic hstart' (byte_at htrailer) (byte_at htrailer.tail) hread₁
    hread₂ hread₃
  rw [hoffset, href', wrap64_natCast hnumLt, wrap64_natCast htopLt, wrap64_natCast htableLt,
    hproduct, hsum] at hparse
  exact hparse (by omega) hplaces

/-- **A file that encodes a value is read as this value exactly when it encodes it with scalars that
are understood.** -/
theorem parse_eq_iff (h : Encodes data (fun _ => True) v) :
    (parse data).result = .ok v ↔ Encodes data Form.Plain v := by
  constructor
  · intro hr
    obtain ⟨t, top, htable, htop, hend, htrailer, hholds⟩ := h.file
    have hinside : t.Inside data := by
      rw [Layout.Inside]
      omega
    obtain ⟨w, hw, hplain, -⟩ := hholds.exists_read hinside
    rw [parse_at h.header htable htop hend htrailer, hw] at hr
    exact ⟨h.header, t, top, htable, htop, hend, htrailer, hplain (Except.ok.inj hr)⟩
  · intro hp
    obtain ⟨t, top, htable, htop, hend, htrailer, hholds⟩ := hp.file
    have hinside : t.Inside data := by
      rw [Layout.Inside]
      omega
    rw [parse_at hp.header htable htop hend htrailer]
    exact hholds.read hinside

/-! ### A file -/

/-- A file of one dictionary, in which the integer 5 is written in sixteen bytes. -/
def sample : Data :=
  ⟨[98, 112, 108, 105, 115, 116, 48, 48, 209, 1, 2, 81, 104,
    20, 0, 0, 0, 0, 0, 0, 0, 0, 0, 0, 0, 0, 0, 0, 0, 5, 8, 11, 13,
    0, 0, 0, 0, 0, 0, 1, 1, 0, 0, 0, 0, 0, 0, 0, 3,
    0, 0, 0, 0, 0, 0, 0, 0, 0, 0, 0, 0, 0, 0, 0, 30],
    by decide⟩

def sampleLayout : Layout := ⟨1, 1, 3, 30, by decide, by decide⟩

theorem encodes_sample : Encodes sample (fun _ => True) (.dict [([104], .int 5)]) := by
  have hat {pos : ℕ} {bytes : List UInt8} (h : bytes.isPrefixOf (sample.val.drop pos) = true) :
      At sample pos bytes := List.isPrefixOf_iff_prefix.mp h
  have hentry₀ : Entry sample sampleLayout 0 8 := ⟨by decide, by decide, hat (by decide +kernel)⟩
  have hentry₁ : Entry sample sampleLayout 1 11 := ⟨by decide, by decide, hat (by decide +kernel)⟩
  have hentry₂ : Entry sample sampleLayout 2 13 := ⟨by decide, by decide, hat (by decide +kernel)⟩
  have hkey : Holds sample sampleLayout (fun _ => True) 62 1 (.string [104]) :=
    .scalar hentry₁ (hat (by decide +kernel))
      (Form.Bytes.ascii [104] [81] (by simp) (Head.inline (by decide))) trivial
  have hval : Holds sample sampleLayout (fun _ => True) 62 2 (.int 5) :=
    .scalar hentry₂ (hat (by decide +kernel)) (Form.Bytes.int 4 5 (by norm_num [intRange])) trivial
  refine ⟨hat (by decide +kernel), sampleLayout, 0, by decide, by decide, by decide,
    hat (by decide +kernel), ?_⟩
  refine @Holds.dict sample sampleLayout (fun _ => True)
    62 0 8 [209] [1, 2] [1] [2] [[104]] [.int 5]
    hentry₀ (hat (by decide +kernel)) (Head.inline (by decide)) ⟨by decide, by decide⟩ rfl rfl rfl
    (by decide) ?_ ?_
  · intro r k h
    rcases List.mem_singleton.mp h with ⟨⟩
    exact hkey
  · intro r v h
    rcases List.mem_singleton.mp h with ⟨⟩
    exact hval

theorem parse_eq_iff_sample :
    (parse sample).result = .ok (.dict [([104], .int 5)]) ↔
      Encodes sample Form.Plain (.dict [([104], .int 5)]) :=
  parse_eq_iff encodes_sample

/-- The integer in a dictionary of one. -/
def onlyInt : Value → Option ℤ
  | .dict [(_, .int v)] => some v
  | _ => none

theorem not_parse_eq :
    ¬∀ data v, Encodes data (fun _ => True) v → (parse data).result = .ok v := by
  intro h
  have hzero : (parse sample).result.toOption.bind onlyInt = some 0 := by
    decide +kernel
  rw [h sample _ encodes_sample] at hzero
  exact absurd hzero (by decide)

end Plist

end SingularityShell
