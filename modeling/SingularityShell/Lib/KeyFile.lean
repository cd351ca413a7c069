import SingularityShell.Lib.Escape

/-!
# Key files

A key file has groups of keys with values, and is written as text. Its operations are those of the
library, which is not modelled: what a program relies on are the laws of `KeyFiles.Lawful`. A name
is a row of letters and digits, for which no rule of the format makes a difference.

## Main definitions

* `KeyFiles` — the operations
* `KeyFiles.Lawful` — what is relied on
* `KeyFile.plain` — key files of one group

## Main results

* `KeyFile.plain_lawful` — they keep the laws
-/

namespace SingularityShell

open Ascii Utf8

/-- The operations of key files of type `K`. -/
structure KeyFiles (K : Type*) where
  /-- `load_from_data` and `load_from_file`, with `KEEP_COMMENTS` or without. -/
  load : Bool → Text → Option K
  /-- `to_data`, which `save_to_file` writes. -/
  data : K → Text
  hasGroup : K → Text → Bool
  hasKey : K → Text → Text → Bool
  getString : K → Text → Text → Option Text
  setString : K → Text → Text → Text → K
  removeKey : K → Text → Text → Option K

namespace KeyFile

/-- A row of letters and digits. -/
def IsName (name : Text) : Prop :=
  name ≠ [] ∧ ∀ b ∈ name, isDigit b ∨ 65 ≤ b ∧ b ≤ 90 ∨ 97 ≤ b ∧ b ≤ 122

instance (name : Text) : Decidable (IsName name) := inferInstanceAs (Decidable (_ ∧ _))

end KeyFile

namespace KeyFiles

variable {K : Type*} (G : KeyFiles K)

/-- Two key files give the same answers. -/
structure Same (kf kf' : K) : Prop where
  hasGroup : ∀ g, G.hasGroup kf g = G.hasGroup kf' g
  hasKey : ∀ g k, G.hasKey kf g k = G.hasKey kf' g k
  getString : ∀ g k, G.getString kf g k = G.getString kf' g k

/-- A change of one key leaves the rest of its group as it is. -/
structure Keeps (kf kf' : K) (g k : Text) : Prop where
  hasGroup : G.hasGroup kf g = true → G.hasGroup kf' g = true
  hasKey : ∀ other, other ≠ k → G.hasKey kf' g other = G.hasKey kf g other
  getString : ∀ other, other ≠ k → G.getString kf' g other = G.getString kf g other

/-- What the documentation of the library says of them. -/
structure Lawful : Prop where
  /-- What was saved is loaded. -/
  load_data : ∀ kf keep, ∃ kf', G.load keep (G.data kf) = some kf' ∧ G.Same kf' kf
  /-- Comments make no difference to the values. -/
  load_keep : ∀ text kf, G.load false text = some kf →
    ∃ kf', G.load true text = some kf' ∧ G.Same kf' kf
  /-- A string in UTF-8 that was set is what one gets. -/
  set : ∀ kf g k v, KeyFile.IsName g → KeyFile.IsName k → G.hasGroup kf g = true →
    G.Keeps kf (G.setString kf g k v) g k ∧ G.hasKey (G.setString kf g k v) g k = true ∧
    (IsString v → G.getString (G.setString kf g k v) g k = some v)
  /-- A key that is missing cannot be removed. -/
  remove_none : ∀ kf g k, G.hasKey kf g k = false → G.removeKey kf g k = none
  remove_some : ∀ kf g k, G.hasKey kf g k = true →
    ∃ kf', G.removeKey kf g k = some kf' ∧ G.Keeps kf kf' g k ∧ G.hasKey kf' g k = false

variable {G}

theorem Keeps.trans {a b c : K} {g k k' other : Text} (h : G.Keeps a b g k)
    (h' : G.Keeps b c g k') (hk : other ≠ k) (hk' : other ≠ k') :
    G.hasKey c g other = G.hasKey a g other ∧ G.getString c g other = G.getString a g other :=
  ⟨(h'.hasKey other hk').trans (h.hasKey other hk),
    (h'.getString other hk').trans (h.getString other hk)⟩

end KeyFiles

/-! ### Key files of one group -/

namespace KeyFile

open Escape

/-- A key file of one group, without comments. The names have none of the characters by which they
are told from the rest of a line. -/
structure Plain where
  group : Text
  entries : List (Text × Text)
  group_plain : 10 ∉ group
  keys_plain : ∀ e ∈ entries, 61 ∉ e.1 ∧ 10 ∉ e.1

/-- `key=value` -/
def line (e : Text × Text) : Text := e.1 ++ 61 :: escape e.2

/-- `[group]` -/
def header (group : Text) : Text := 91 :: group ++ [93]

def Plain.data (kf : Plain) : Text :=
  [10].intercalate (header kf.group :: kf.entries.map line ++ [[]])

def readHeader (text : Text) : Option Text :=
  if text.head? = some 91 ∧ text.tail.getLast? = some 93 then some text.tail.dropLast else none

/-- Any byte but `=`. -/
def isOfKey (b : UInt8) : Bool := b ≠ 61

def readLine (text : Text) : Option (Text × Text) :=
  match text.dropWhile isOfKey with
  | [] => none
  | _ :: value => some (text.takeWhile isOfKey, unescape value)

def Plain.load (text : Text) : Option Plain :=
  match text.splitOn 10 with
  | [] => none
  | first :: rest =>
    match readHeader first, (rest.filter (· ≠ [])).mapM readLine with
    | some group, some entries =>
      if h : 10 ∉ group ∧ ∀ e ∈ entries, 61 ∉ e.1 ∧ 10 ∉ e.1 then some ⟨group, entries, h.1, h.2⟩
      else none
    | _, _ => none

theorem readHeader_header (group : Text) : readHeader (header group) = some group := by
  have htail : (header group).tail = group ++ [93] := rfl
  rw [readHeader, htail, List.getLast?_concat, List.dropLast_concat]
  exact if_pos ⟨rfl, rfl⟩

theorem readLine_line {e : Text × Text} (h : 61 ∉ e.1) : readLine (line e) = some e := by
  have hne : ∀ b ∈ e.1, isOfKey b = true := fun b hb =>
    decide_eq_true fun he => h (he ▸ hb)
  have hstop : ¬ isOfKey 61 = true := by decide
  have hdrop : (line e).dropWhile isOfKey = 61 :: escape e.2 := by
    rw [line, List.dropWhile_append_of_pos hne, List.dropWhile_cons_of_neg hstop]
  have htake : (line e).takeWhile isOfKey = e.1 := by
    rw [line, List.takeWhile_append_of_pos hne, List.takeWhile_cons_of_neg hstop, List.append_nil]
  rw [readLine, hdrop]
  dsimp only
  rw [htake, unescape_escape]

theorem mapM_readLine {entries : List (Text × Text)} (h : ∀ e ∈ entries, 61 ∉ e.1) :
    (entries.map line).mapM readLine = some entries := by
  induction entries with
  | nil => rfl
  | cons e entries ih =>
    rw [List.map_cons, List.mapM_cons, readLine_line (h e List.mem_cons_self),
      ih fun f hf => h f (List.mem_cons_of_mem _ hf)]
    rfl

/-- What was saved is loaded. -/
theorem Plain.load_data (kf : Plain) : Plain.load kf.data = some kf := by
  have hlines : ∀ l ∈ header kf.group :: kf.entries.map line ++ [[]], 10 ∉ l := by
    intro l hl
    rw [List.cons_append, List.mem_cons, List.mem_append, List.mem_map, List.mem_singleton] at hl
    rcases hl with rfl | ⟨e, he, rfl⟩ | rfl
    · simp [header, kf.group_plain]
    · simp [line, (kf.keys_plain e he).2, newline_notMem_escape]
    · exact List.not_mem_nil
  have hfilter : (kf.entries.map line ++ [[]]).filter (· ≠ []) = kf.entries.map line := by
    rw [List.filter_append]
    have hall : (kf.entries.map line).filter (· ≠ []) = kf.entries.map line := by
      refine List.filter_eq_self.mpr fun l hl => decide_eq_true ?_
      obtain ⟨e, -, rfl⟩ := List.mem_map.mp hl
      simp [line]
    rw [hall]
    exact List.append_nil _
  rw [Plain.load, Plain.data, List.splitOn_intercalate 10 hlines (List.cons_ne_nil _ _),
    List.cons_append]
  dsimp only
  rw [readHeader_header, hfilter, mapM_readLine fun e he => (kf.keys_plain e he).1]
  exact dif_pos ⟨kf.group_plain, kf.keys_plain⟩

namespace Plain

variable (kf : Plain)

def hasGroup (g : Text) : Bool := g = kf.group

/-- The value of a key. -/
def lookup (k : Text) : Option Text := (kf.entries.find? (·.1 = k)).map Prod.snd

def hasKey (g k : Text) : Bool := g = kf.group && (kf.lookup k).isSome

def getString (g k : Text) : Option Text := if g = kf.group then kf.lookup k else none

/-- The entries of the other keys. -/
def others (k : Text) : List (Text × Text) := kf.entries.filter fun e => e.1 ≠ k

theorem others_plain (k : Text) : ∀ e ∈ kf.others k, 61 ∉ e.1 ∧ 10 ∉ e.1 :=
  fun e he => kf.keys_plain e (List.mem_filter.mp he).1

theorem concat_plain {k : Text} (hk : 61 ∉ k ∧ 10 ∉ k) (v : Text) :
    ∀ e ∈ kf.others k ++ [(k, v)], 61 ∉ e.1 ∧ 10 ∉ e.1 := by
  intro e he
  rcases List.mem_append.mp he with he | he
  · exact kf.others_plain k e he
  · rw [List.mem_singleton.mp he]
    exact hk

/-- A key that is not a name is ignored. -/
def setString (g k v : Text) : Plain :=
  if h : g = kf.group ∧ 61 ∉ k ∧ 10 ∉ k then
    ⟨kf.group, kf.others k ++ [(k, v)], kf.group_plain, kf.concat_plain h.2 v⟩
  else kf

def removeKey (g k : Text) : Option Plain :=
  if kf.hasKey g k then
    some ⟨kf.group, kf.others k, kf.group_plain, kf.others_plain k⟩
  else none

end Plain

/-- Key files of one group. -/
def plain : KeyFiles Plain where
  load _ := Plain.load
  data := Plain.data
  hasGroup := Plain.hasGroup
  hasKey := Plain.hasKey
  getString := Plain.getString
  setString := Plain.setString
  removeKey := Plain.removeKey

theorem Plain.find_others (kf : Plain) {k other : Text} (h : other ≠ k) :
    (kf.others k).find? (·.1 = other) = kf.entries.find? (·.1 = other) := by
  rw [Plain.others, List.find?_filter]
  refine congrArg (fun p => kf.entries.find? p) (funext fun e => ?_)
  rw [decide_eq_decide, decide_eq_true_eq, decide_eq_true_eq]
  exact ⟨And.right, fun he => ⟨fun hk => h (he.symm.trans hk), he⟩⟩

theorem Plain.find_others_self (kf : Plain) (k : Text) :
    (kf.others k).find? (·.1 = k) = none := by
  refine List.find?_eq_none.mpr fun e he => ?_
  have hne := of_decide_eq_true (List.mem_filter.mp he).2
  simpa using hne

theorem ofKey_of_isName {k : Text} (h : IsName k) : 61 ∉ k ∧ 10 ∉ k := by
  refine ⟨fun hbad => ?_, fun hbad => ?_⟩
  · exact absurd (h.2 61 hbad) (by decide)
  · exact absurd (h.2 10 hbad) (by decide)

/-- The answers of a key file after a change of one key follow from the values of the others. -/
theorem keeps_of_lookup {kf kf' : Plain} {g k : Text} (hgroup : kf'.group = kf.group)
    (h : ∀ other, other ≠ k → kf'.lookup other = kf.lookup other) : plain.Keeps kf kf' g k where
  hasGroup hg := by
    change decide (g = kf'.group) = true
    rw [hgroup]
    exact hg
  hasKey other hne := by
    change (decide (g = kf'.group) && _) = (decide (g = kf.group) && _)
    rw [hgroup, h other hne]
  getString other hne := by
    change (if g = kf'.group then _ else _) = if g = kf.group then _ else _
    rw [hgroup, h other hne]

theorem Plain.setString_eq (kf : Plain) {g k : Text} (hk : IsName k) (hg : g = kf.group)
    (v : Text) : kf.setString g k v = ⟨kf.group, kf.others k ++ [(k, v)], kf.group_plain,
      kf.concat_plain (ofKey_of_isName hk) v⟩ :=
  dif_pos ⟨hg, ofKey_of_isName hk⟩

theorem plain_set (kf : Plain) (g k v : Text) (hk : IsName k)
    (hgroup : plain.hasGroup kf g = true) :
    plain.Keeps kf (plain.setString kf g k v) g k ∧
      plain.hasKey (plain.setString kf g k v) g k = true ∧
      (IsString v → plain.getString (plain.setString kf g k v) g k = some v) := by
  have hg : g = kf.group := of_decide_eq_true hgroup
  have hset : plain.setString kf g k v = _ := kf.setString_eq hk hg v
  have hself : (plain.setString kf g k v).lookup k = some v := by
    have hlast : [(k, v)].find? (·.1 = k) = some (k, v) :=
      List.find?_cons_of_pos (decide_eq_true rfl)
    rw [hset, Plain.lookup, List.find?_append, kf.find_others_self, Option.none_or, hlast]
    rfl
  have hgroup' : (plain.setString kf g k v).group = kf.group := by rw [hset]
  refine ⟨keeps_of_lookup hgroup' fun other hne => ?_, ?_, fun _ => ?_⟩
  · have hlast : [(k, v)].find? (·.1 = other) = none :=
      List.find?_cons_of_neg (by simpa using Ne.symm hne)
    rw [hset, Plain.lookup, List.find?_append, kf.find_others hne, hlast, Option.or_none,
      Plain.lookup]
  · change (decide (g = _) && Option.isSome _) = true
    rw [hself, hgroup', decide_eq_true hg]
    rfl
  · change (if g = _ then _ else _) = _
    rw [hgroup', if_pos hg, hself]

theorem plain_remove (kf : Plain) (g k : Text) (h : plain.hasKey kf g k = true) :
    ∃ kf', plain.removeKey kf g k = some kf' ∧ plain.Keeps kf kf' g k ∧
      plain.hasKey kf' g k = false := by
  refine ⟨_, if_pos h, keeps_of_lookup rfl fun other hne => ?_, ?_⟩
  · rw [Plain.lookup, kf.find_others hne, Plain.lookup]
  · change (_ && Option.isSome (Option.map _ ((kf.others k).find? _))) = false
    rw [kf.find_others_self]
    exact Bool.and_false _

/-- **Key files of one group keep the laws.** -/
theorem plain_lawful : plain.Lawful where
  load_data kf _ := ⟨kf, kf.load_data, fun _ => rfl, fun _ _ => rfl, fun _ _ => rfl⟩
  load_keep _ kf h := ⟨kf, h, fun _ => rfl, fun _ _ => rfl, fun _ _ => rfl⟩
  set kf g k v _ hk hgroup := plain_set kf g k v hk hgroup
  remove_none kf g k h := by
    have hno : ¬ kf.hasKey g k = true := by
      rw [Bool.not_eq_true]
      exact h
    exact if_neg hno
  remove_some := plain_remove

end KeyFile

end SingularityShell
