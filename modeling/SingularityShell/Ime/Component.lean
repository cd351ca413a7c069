import SingularityShell.Lib.CString
import SingularityShell.Lib.Lists
import SingularityShell.Lib.Numeral
import SingularityShell.Lib.Pattern

/-!
# Engines of an IBus component

`Serial.parse_ibus_component` reads the engines out of the XML that describes an IBus component. It
looks for tags as for any other substrings. References are decoded in several passes: those with a
number first, and then each of the named ones in what has come out.

## Main definitions

* `Ime.Component.unescape`, `Ime.Component.tag`, `Ime.Component.parseIbusComponent` — the reader
* `Ime.Component.Token`, `Ime.Component.Element`, `Ime.Component.Document` — what is written: every
  character of a text in one of its spellings
* `Ime.Component.Unambiguous` — no ampersand written as a number comes to stand before what makes a
  reference of it

## Main results

* `Ime.Component.decoded_spec` — what becomes of a text
* `Ime.Component.parseIbusComponent_render` — the texts that are found in a document
* `Ime.Component.parse_asWritten_iff` — when the engines are read as they were written
-/

namespace SingularityShell

namespace Ime.Component

open Ascii Numeral Pattern

/-! ### The reader -/

structure EngineInfo where
  framework : Text
  name : Text
  label : Text
  symbol : Text
  language : Text
  deriving DecidableEq

/-- A byte that continues a character: six bits of it. -/
def continuation (code k : ℕ) : UInt8 := UInt8.ofNat (code / 64 ^ k % 64 + 0x80)

/-- `g_unichar_to_utf8` -/
def unicharToUtf8 (code : ℕ) : Text :=
  if code < 0x80 then [UInt8.ofNat code]
  else if code < 0x800 then [UInt8.ofNat (code / 64 + 0xC0), continuation code 0]
  else if code < 0x10000 then
    [UInt8.ofNat (code / 64 ^ 2 + 0xE0), continuation code 1, continuation code 0]
  else if code < 0x200000 then
    [UInt8.ofNat (code / 64 ^ 3 + 0xF0), continuation code 2, continuation code 1,
      continuation code 0]
  else if code < 0x4000000 then
    [UInt8.ofNat (code / 64 ^ 4 + 0xF8), continuation code 3, continuation code 2,
      continuation code 1, continuation code 0]
  else
    [UInt8.ofNat (code / 64 ^ 5 + 0xFC), continuation code 4, continuation code 3,
      continuation code 2, continuation code 1, continuation code 0]

/-- `int64.try_parse`, which reads the whole text or fails. -/
def tryParse (base : ℕ) (text : Text) : Option ℤ :=
  let s := scan base text
  if s.rest = [] then
    some (if s.negative then max (-s.amount) (-2 ^ 63) else min s.amount (2 ^ 63 - 1))
  else none

/-- The reference with a number that a text begins with: the bytes of its character, and how long it
is. -/
def reference (text : Text) : Option (Text × ℕ) :=
  match text with
  | 38 :: 35 :: rest =>
    if 59 ∈ rest then
      let number := rest.takeWhile (· ≠ 59)
      let hex := number.head? = some 120 ∨ number.head? = some 88
      match tryParse (if hex then 16 else 10) (if hex then number.drop 1 else number) with
      | some code =>
        if 0 < code then some (unicharToUtf8 (code.toNat % 2 ^ 32), number.length + 3) else none
      | none => none
    else none
  | _ => none

/-- The loop of `unescape`, with the bytes that are passed over. -/
def decodeFrom : ℕ → Text → Text
  | _, [] => []
  | k + 1, _ :: text => decodeFrom k text
  | 0, b :: text =>
    match reference (b :: text) with
    | some (bytes, length) => bytes ++ decodeFrom (length - 1) text
    | none => b :: decodeFrom 0 text

/-- The named references, in the order in which they are replaced, and the characters they stand
for. -/
def names : List (Text × UInt8) :=
  [(ofString "lt", 60), (ofString "gt", 62), (ofString "quot", 34), (ofString "apos", 39),
    (ofString "amp", 38)]

def named (name : Text) : Text := 38 :: (name ++ [59])

/-- `unescape` -/
def unescape (text : Text) : Text :=
  (names.map fun e => (named e.1, e.2)).foldl (fun text e => replaceAny [e] text)
    (CString.cstr (decodeFrom 0 text))

def openTag (name : Text) : Text := 60 :: (name ++ [62])

def closeTag (name : Text) : Text := 60 :: ((47 :: name) ++ [62])

/-- `tag` -/
def tag (block name : Text) : Text :=
  match cut (openTag name) block with
  | none => []
  | some (_, rest) =>
    match cut (closeTag name) (rest.drop (openTag name).length) with
    | none => []
    | some (text, _) => unescape (strip text)

def engineOf (block : Text) : EngineInfo where
  framework := ofString "ibus"
  name := tag block (ofString "name")
  label :=
    if tag block (ofString "longname") = [] then tag block (ofString "name")
    else tag block (ofString "longname")
  symbol := tag block (ofString "symbol")
  language := tag block (ofString "language")

/-- The engines that are not left out. -/
def EngineInfo.isKept (info : EngineInfo) : Bool :=
  info.name ≠ [] && !(ofString "xkb:").isPrefixOf info.name

def engineOpen : Text := openTag (ofString "engine")

def engineClose : Text := closeTag (ofString "engine")

/-- `parse_ibus_component`, from one position on. -/
def parseIbusComponent (xml : Text) : List EngineInfo :=
  match _h : cut engineOpen xml with
  | none => []
  | some (_, rest) =>
    match _h' : cut engineClose rest with
    | none => []
    | some (block, rest') =>
      (if (engineOf block).isKept then [engineOf block] else []) ++
        parseIbusComponent (rest'.drop 9)
termination_by xml.length
decreasing_by
  have hrest := congrArg List.length (cut_spec _h).1
  have hrest' := congrArg List.length (cut_spec _h').1
  have hclose : engineClose.length ≤ rest'.length := (cut_spec _h').2.length_le
  have hnine : engineClose.length = 9 := rfl
  rw [List.length_append] at hrest hrest'
  rw [List.length_drop]
  omega

/-! ### What is written -/

/-- The bytes of a character. -/
def utf8 (c : Char) : Text := String.utf8EncodeChar c

/-- How a character is written. -/
inductive Spelling where
  | plain
  | named
  | decimal (digits : Text)
  | hex (digits : Text)

/-- The name of a character, for the five that have one. -/
def nameOf (c : Char) : Option Text := (names.find? fun e => e.2.toNat = c.toNat).map (·.1)

/-- The spellings of a character: `<` and `&` are not written as they are. -/
def Spelling.Fits (c : Char) : Spelling → Prop
  | .plain => c ≠ '<' ∧ c ≠ '&'
  | .named => (nameOf c).isSome
  | .decimal digits => digits ≠ [] ∧ (∀ b ∈ digits, isDigit b = true) ∧ value digits = c.toNat
  | .hex digits => digits ≠ [] ∧ (∀ b ∈ digits, isDigitOf 16 b = true) ∧
      amount 16 digits = c.toNat

/-- A character of a text and its spelling. -/
structure Token where
  char : Char
  spelling : Spelling
  nonzero : char.toNat ≠ 0
  fits : spelling.Fits char

def Token.spell (t : Token) : Text :=
  match t.spelling with
  | .plain => utf8 t.char
  | .named => Component.named ((nameOf t.char).getD [])
  | .decimal digits => 38 :: 35 :: (digits ++ [59])
  | .hex digits => 38 :: 35 :: ((120 :: digits) ++ [59])

def textOf (tokens : List Token) : Text := tokens.flatMap fun t => utf8 t.char

def spell (tokens : List Token) : Text := tokens.flatMap Token.spell

def isBlankChar (c : Char) : Bool := [32, 9, 10, 12, 13].contains c.toNat

/-- A text without blanks around it, as it is written. -/
structure Written where
  tokens : List Token
  head : ∀ t ∈ tokens.head?, isBlankChar t.char = false
  last : ∀ t ∈ tokens.getLast?, isBlankChar t.char = false

inductive Tag where
  | name | longname | symbol | language
  deriving DecidableEq

def Tag.word : Tag → Text
  | .name => ofString "name"
  | .longname => ofString "longname"
  | .symbol => ofString "symbol"
  | .language => ofString "language"

/-- Anything else that is found in an element. -/
def IsFiller (text : Text) : Prop :=
  (∀ t : Tag, ¬openTag t.word <:+: text) ∧ ¬engineClose <:+: text

/-- A text in its tags, and what stands after it. -/
structure Item where
  tag : Tag
  text : Written
  after : Text
  filler : IsFiller after

def Item.render (i : Item) : Text :=
  openTag i.tag.word ++ (spell i.text.tokens ++ (closeTag i.tag.word ++ i.after))

/-- An engine as it is written, with its texts in any order. A text that is empty may be left
out. -/
structure Element where
  before : Text
  items : List Item
  filler : IsFiller before
  nodup : (items.map Item.tag).Nodup

def Element.body (e : Element) : Text := e.before ++ e.items.flatMap Item.render

def Element.text (e : Element) (t : Tag) : List Token :=
  match e.items.find? (·.tag = t) with
  | none => []
  | some i => i.text.tokens

/-- The engine that is meant. -/
def Element.meant (e : Element) : EngineInfo where
  framework := ofString "ibus"
  name := textOf (e.text .name)
  label :=
    if textOf (e.text .longname) = [] then textOf (e.text .name) else textOf (e.text .longname)
  symbol := textOf (e.text .symbol)
  language := textOf (e.text .language)

/-- The engines of a component, and what stands before the first and after each. -/
structure Document where
  before : Text
  elements : List (Element × Text)
  before_free : ¬engineOpen <:+: before
  after_free : ∀ e ∈ elements, ¬engineOpen <:+: e.2

def renderElements (elements : List (Element × Text)) : Text :=
  elements.flatMap fun e => engineOpen ++ (e.1.body ++ (engineClose ++ e.2))

def Document.render (d : Document) : Text := d.before ++ renderElements d.elements

/-- An ampersand that is written as a number and comes to stand before what makes a reference of
it. -/
def Ambiguous (t : Token) (rest : List Token) : Prop :=
  t.char = '&' ∧ t.spelling ≠ .named ∧ ∃ e ∈ names, e.1 ++ [59] <+: textOf rest

/-- No ampersand in a text is. -/
def Unambiguous : List Token → Prop
  | [] => True
  | t :: rest => ¬Ambiguous t rest ∧ Unambiguous rest

/-! ### Characters -/

theorem utf8_of_lt {c : Char} (h : c.toNat < 0x80) : utf8 c = [UInt8.ofNat c.toNat] :=
  if_pos (Nat.le_of_lt_succ h)

theorem toNat_lt (c : Char) : c.val.toNat < 0x110000 := by
  rcases c.valid with h | h
  · exact lt_trans h (by decide)
  · exact h.2

/-- The bytes of a character that is not ASCII are not ASCII. -/
theorem le_of_mem_utf8 {c : Char} (h : 0x80 ≤ c.toNat) {b : UInt8} (hb : b ∈ utf8 c) :
    0x80 ≤ b.toNat := by
  have hpos : ¬c.val.toNat ≤ 0x7f := not_le.mpr h
  rw [utf8, String.utf8EncodeChar] at hb
  rw [if_neg hpos] at hb
  split_ifs at hb <;> simp only [List.mem_cons, List.not_mem_nil, or_false] at hb
  · rcases hb with rfl | rfl <;> rw [UInt8.toNat_ofNat'] <;> omega
  · rcases hb with rfl | rfl | rfl <;> rw [UInt8.toNat_ofNat'] <;> omega
  · rcases hb with rfl | rfl | rfl | rfl <;> rw [UInt8.toNat_ofNat'] <;> omega

theorem utf8_ne_nil (c : Char) : utf8 c ≠ [] := String.utf8EncodeChar_ne_nil

/-- An ASCII byte is the whole character. -/
theorem utf8_of_mem {c : Char} {b : UInt8} (hb : b ∈ utf8 c) (hlt : b < 0x80) :
    utf8 c = [b] ∧ c.toNat = b.toNat := by
  have hlt' : b.toNat < 0x80 := hlt
  by_cases h : c.toNat < 0x80
  · rw [utf8_of_lt h] at hb ⊢
    obtain rfl := List.mem_singleton.mp hb
    exact ⟨rfl, by rw [UInt8.toNat_ofNat', Nat.mod_eq_of_lt (by omega)]⟩
  · exact absurd (le_of_mem_utf8 (not_lt.mp h) hb) (not_le.mpr hlt')

/-- GLib writes the characters as they are written. -/
theorem unicharToUtf8_toNat (c : Char) : unicharToUtf8 c.toNat = utf8 c := by
  have hmax := toNat_lt c
  have hnat : c.toNat = c.val.toNat := rfl
  rw [unicharToUtf8, utf8, String.utf8EncodeChar, hnat]
  simp only [continuation, pow_zero, Nat.div_one, pow_one, Nat.reducePow]
  split_ifs <;> try omega
  · rfl
  · rw [Nat.mod_eq_of_lt (show c.val.toNat / 64 < 32 by omega)]
  · rw [Nat.mod_eq_of_lt (show c.val.toNat / 4096 < 16 by omega)]
  · rw [Nat.mod_eq_of_lt (show c.val.toNat / 262144 < 8 by omega)]

/-! ### References with a number -/

theorem decodeFrom_eq (k : ℕ) (text : Text) : decodeFrom k text = decodeFrom 0 (text.drop k) := by
  induction k generalizing text with
  | zero => rfl
  | succ k ih =>
    cases text with
    | nil => rfl
    | cons b text => exact ih text

theorem decodeFrom_cons_of_none {b : UInt8} {text : Text} (h : reference (b :: text) = none) :
    decodeFrom 0 (b :: text) = b :: decodeFrom 0 text := by
  rw [decodeFrom, h]

/-- What has no ampersand is left as it is. -/
theorem decodeFrom_append {plain : Text} (h : 38 ∉ plain) (rest : Text) :
    decodeFrom 0 (plain ++ rest) = plain ++ decodeFrom 0 rest := by
  induction plain with
  | nil => rfl
  | cons b plain ih =>
    rw [List.cons_append, decodeFrom_cons_of_none, ih (List.not_mem_of_not_mem_cons h),
      List.cons_append]
    rw [reference.eq_def]
    split
    · next heq => exact absurd ((List.cons.inj heq).1 ▸ List.mem_cons_self) h
    · rfl

theorem decodeFrom_of_reference {text rest bytes : Text} (hne : text ≠ [])
    (h : reference (text ++ rest) = some (bytes, text.length)) :
    decodeFrom 0 (text ++ rest) = bytes ++ decodeFrom 0 rest := by
  obtain ⟨b, text, rfl⟩ := List.exists_cons_of_ne_nil hne
  rw [List.cons_append] at h ⊢
  rw [decodeFrom, h]
  dsimp only
  rw [decodeFrom_eq, List.length_cons, Nat.add_sub_cancel, List.drop_left]

theorem tryParse_digits (base : ℕ) (hbase : base ≠ 0) (hle : base ≤ 33) {digits : Text}
    (hne : digits ≠ []) (h : ∀ b ∈ digits, isDigitOf base b = true)
    (hlt : amount base digits < 2 ^ 63) : tryParse base digits = some (amount base digits : ℤ) := by
  simp only [tryParse, scan_digits hbase hle hne h, Scan.amount, if_true]
  rw [if_neg Bool.false_ne_true, min_eq_left (by omega)]

/-- A reference is read, when its digits are no prefix of a number to a base. -/
theorem reference_eq {c : Char} (hzero : c.toNat ≠ 0) {number : Text} (rest : Text)
    (hsemi : 59 ∉ number)
    (hparse : tryParse (if number.head? = some 120 ∨ number.head? = some 88 then 16 else 10)
      (if number.head? = some 120 ∨ number.head? = some 88 then number.drop 1 else number) =
        some (c.toNat : ℤ)) :
    reference (38 :: 35 :: (number ++ [59]) ++ rest) = some (utf8 c, number.length + 3) := by
  have hmax := toNat_lt c
  have hnat : c.toNat = c.val.toNat := rfl
  have htake : (number ++ 59 :: rest).takeWhile (· ≠ 59) = number := by
    rw [List.takeWhile_append_of_pos fun b hb =>
      decide_eq_true (ne_of_mem_of_not_mem hb hsemi)]
    simp
  have htext : 38 :: 35 :: (number ++ [59]) ++ rest = 38 :: 35 :: (number ++ 59 :: rest) := by
    simp
  rw [htext, reference, if_pos (List.mem_append_right _ List.mem_cons_self), htake]
  dsimp only
  rw [hparse]
  dsimp only
  rw [if_pos (by omega), Int.toNat_natCast, Nat.mod_eq_of_lt (by omega), unicharToUtf8_toNat]

/-! ### What the first pass leaves -/

/-- What the first pass makes of a character: the named references are still there. -/
def Token.decoded (t : Token) : Text :=
  match t.spelling with
  | .named => t.spell
  | _ => utf8 t.char

def firstPass (tokens : List Token) : Text := tokens.flatMap Token.decoded

theorem decoded_of_ne {t : Token} (h : t.spelling ≠ .named) : t.decoded = utf8 t.char := by
  rw [Token.decoded]
  split
  · next hs => exact absurd hs h
  · rfl

/-- The names, and the characters they stand for. -/
theorem named_cases {t : Token} (h : t.spelling = .named) : ∃ e ∈ names,
    t.spell = named e.1 ∧ utf8 t.char = [e.2] := by
  have hfits := t.fits
  rw [h, Spelling.Fits, nameOf, Option.isSome_map] at hfits
  obtain ⟨e, he⟩ := Option.isSome_iff_exists.mp hfits
  have hmem := List.mem_of_find?_eq_some he
  have hchar : e.2.toNat = t.char.toNat := by simpa using List.find?_some he
  have hlt : ∀ x ∈ names, x.2.toNat < 0x80 := by decide
  refine ⟨e, hmem, ?_, ?_⟩
  · rw [Token.spell, h, nameOf, he]
    rfl
  · rw [utf8_of_lt (hchar ▸ hlt e hmem), ← hchar, UInt8.ofNat_toNat]

/-- An ampersand is found only in a spelling that begins with it. -/
theorem notMem_utf8 {c : Char} {b : UInt8} (hlt : b < 0x80) (h : c.toNat ≠ b.toNat) : b ∉ utf8 c :=
  fun hb => h (utf8_of_mem hb hlt).2

theorem decodeFrom_token (t : Token) (rest : Text) :
    decodeFrom 0 (t.spell ++ rest) = t.decoded ++ decodeFrom 0 rest := by
  have hfits := t.fits
  cases hs : t.spelling with
  | plain =>
    have hne : t.char.toNat ≠ (38 : UInt8).toNat := by
      rw [hs] at hfits
      exact fun he => hfits.2 (Char.ext (UInt32.toNat_inj.mp he))
    rw [Token.decoded, Token.spell, hs]
    exact decodeFrom_append (notMem_utf8 (by decide) hne) rest
  | named =>
    obtain ⟨e, he, hspell, -⟩ := named_cases hs
    have hdecoded : t.decoded = t.spell := by rw [Token.decoded, hs]
    have hplain : ∀ x ∈ names, 38 ∉ x.1 ++ [59] ∧ (x.1 ++ [59]).head? ≠ some 35 := by decide
    rw [hdecoded, hspell, named, List.cons_append, decodeFrom_cons_of_none,
      decodeFrom_append (hplain e he).1]
    · rfl
    · have hhead : (e.1 ++ [59] ++ rest).head? ≠ some 35 := by
        rw [List.head?_append_of_ne_nil _ (by simp)]
        exact (hplain e he).2
      rw [reference.eq_def]
      split
      · next heq =>
        rw [(List.cons.inj heq).2] at hhead
        exact absurd rfl hhead
      · rfl
  | decimal digits =>
    rw [hs] at hfits
    obtain ⟨hne, hdigits, hvalue⟩ := hfits
    have hhead : ¬(digits.head? = some 120 ∨ digits.head? = some 88) := by
      rintro (hx | hx) <;> exact absurd (hdigits _ (List.mem_of_mem_head? hx)) (by decide)
    have hmax := toNat_lt t.char
    have hnat : t.char.toNat = t.char.val.toNat := rfl
    have hparse := tryParse_digits 10 (by omega) (by omega) hne
      (fun b hb => isDigitOf_of_isDigit (hdigits b hb) le_rfl)
      (by rw [amount_ten hdigits, hvalue]; omega)
    rw [amount_ten hdigits, hvalue] at hparse
    have hspell : t.spell = 38 :: 35 :: (digits ++ [59]) := by rw [Token.spell, hs]
    have hdecoded : t.decoded = utf8 t.char := by rw [Token.decoded, hs]
    rw [hdecoded, hspell]
    refine decodeFrom_of_reference (List.cons_ne_nil _ _) ?_
    rw [reference_eq t.nonzero rest (fun hb => absurd (hdigits _ hb) (by decide))
      (by rw [if_neg hhead, if_neg hhead]; exact hparse)]
    simp
  | hex digits =>
    rw [hs] at hfits
    obtain ⟨hne, hdigits, hvalue⟩ := hfits
    have hmax := toNat_lt t.char
    have hnat : t.char.toNat = t.char.val.toNat := rfl
    have hparse := tryParse_digits 16 (by omega) (by omega) hne hdigits
      (by rw [hvalue]; omega)
    rw [hvalue] at hparse
    have hsemi : (59 : UInt8) ∉ 120 :: digits := by
      rw [List.mem_cons, not_or]
      exact ⟨by decide, fun hb => absurd (hdigits _ hb) (by decide)⟩
    have hspell : t.spell = 38 :: 35 :: ((120 :: digits) ++ [59]) := by rw [Token.spell, hs]
    have hdecoded : t.decoded = utf8 t.char := by rw [Token.decoded, hs]
    rw [hdecoded, hspell]
    refine decodeFrom_of_reference (List.cons_ne_nil _ _) ?_
    rw [reference_eq t.nonzero rest hsemi (by simpa using hparse)]
    simp

/-- **The first pass** decodes the references with a number. -/
theorem decodeFrom_spell (tokens : List Token) :
    decodeFrom 0 (spell tokens) = firstPass tokens := by
  induction tokens with
  | nil => rfl
  | cons t tokens ih =>
    rw [spell, List.flatMap_cons, decodeFrom_token]
    exact congrArg (t.decoded ++ ·) ih

theorem zero_notMem_firstPass (tokens : List Token) : 0 ∉ firstPass tokens := by
  rw [firstPass, List.mem_flatMap]
  rintro ⟨t, -, hzero⟩
  have hutf : 0 ∉ utf8 t.char := notMem_utf8 (by decide) t.nonzero
  cases hs : t.spelling with
  | named =>
    obtain ⟨e, he, hspell, -⟩ := named_cases hs
    have hnone : ∀ x ∈ names, 0 ∉ named x.1 := by decide
    rw [Token.decoded, hs] at hzero
    exact hnone e he (hspell ▸ hzero)
  | plain => rw [Token.decoded, hs] at hzero; exact hutf hzero
  | decimal digits => rw [Token.decoded, hs] at hzero; exact hutf hzero
  | hex digits => rw [Token.decoded, hs] at hzero; exact hutf hzero

/-! ### What the other passes make of it -/

/-- The references by name. -/
def table : List (Text × UInt8) := names.map fun e => (named e.1, e.2)

theorem led_table : ∀ e ∈ table, Led 38 e.1 := by
  have hplain : ∀ e ∈ names, 38 ∉ e.1 ++ [59] := by decide
  rintro e he
  obtain ⟨x, hx, rfl⟩ := List.mem_map.mp he
  exact ⟨_, rfl, hplain x hx⟩

/-- **The passes** for the named references come to one. -/
theorem unescape_eq (text : Text) :
    unescape text = replaceAny table (CString.cstr (decodeFrom 0 text)) := by
  have hapart : table.Pairwise fun x y => x.2 ∉ y.1 := by decide
  have hfold (rest : List (Text × UInt8)) : ∀ done s, done ++ rest = table →
      rest.foldl (fun text e => replaceAny [e] text) (replaceAny done s) = replaceAny table s := by
    induction rest with
    | nil =>
      rintro done s htable
      rw [← htable, List.append_nil]
      rfl
    | cons e rest ih =>
      rintro done s htable
      rw [← htable, List.pairwise_append] at hapart
      have hled : ∀ x ∈ done ++ [e], Led 38 x.1 := fun x hx => led_table x (by
        rw [← htable, List.append_cons]
        exact List.mem_append_left _ hx)
      rw [List.foldl_cons, replaceAny_snoc hled fun x hx => hapart.2.2 x hx e List.mem_cons_self]
      exact ih (done ++ [e]) s (by rw [← htable, List.append_assoc, List.singleton_append])
  have hall := hfold table [] (CString.cstr (decodeFrom 0 text)) rfl
  rwa [replaceAny_nil_table] at hall

/-- What one pass makes of a text. -/
def decoded (tokens : List Token) : Text := replaceAny table (firstPass tokens)

theorem unescape_spell (tokens : List Token) : unescape (spell tokens) = decoded tokens := by
  rw [unescape_eq, decodeFrom_spell, CString.cstr_of_notMem (zero_notMem_firstPass tokens), decoded]

/-- What is neither an ampersand nor put in for a reference. -/
def IsPlain (b : UInt8) : Prop := b < 0x80 ∧ b ≠ 38 ∧ ∀ e ∈ names, b ≠ e.2

/-- A character that begins with a plain byte is that byte in every pass. -/
theorem plain_cases {b : UInt8} (hb : IsPlain b) (t : Token) :
    (t.decoded = [b] ∧ utf8 t.char = [b]) ∨
      ((∀ rest, ¬[b] <+: t.decoded ++ rest) ∧ ∀ rest, ¬[b] <+: utf8 t.char ++ rest) := by
  have hhead {text : Text} (hne : text ≠ []) (rest : Text) (h : [b] <+: text ++ rest) :
      b ∈ text := by
    obtain ⟨c, text, rfl⟩ := List.exists_cons_of_ne_nil hne
    rw [List.cons_append, List.cons_prefix_cons] at h
    exact h.1 ▸ List.mem_cons_self
  by_cases hs : t.spelling = .named
  · obtain ⟨e, he, hspell, hutf⟩ := named_cases hs
    have hdecoded : t.decoded = named e.1 := by rw [Token.decoded, hs, ← hspell]
    refine .inr ⟨fun rest h => ?_, fun rest h => ?_⟩
    · rw [hdecoded, named, List.cons_append, List.cons_prefix_cons] at h
      exact hb.2.1 h.1
    · rw [hutf, List.singleton_append, List.cons_prefix_cons] at h
      exact hb.2.2 e he h.1
  · have hdecoded : t.decoded = utf8 t.char := decoded_of_ne hs
    rw [hdecoded]
    by_cases hmem : b ∈ utf8 t.char
    · have hutf := (utf8_of_mem hmem hb.1).1
      exact .inl ⟨hutf, hutf⟩
    · have hnot (rest : Text) : ¬[b] <+: utf8 t.char ++ rest := fun h =>
        hmem (hhead (utf8_ne_nil _) rest h)
      exact .inr ⟨hnot, hnot⟩

/-- What the text begins with it begins with after the first pass, and the other way round. -/
theorem prefix_firstPass {u : Text} (hu : ∀ b ∈ u, IsPlain b) {tokens : List Token}
    (h : u <+: firstPass tokens ∨ u <+: textOf tokens) : ∃ rest, firstPass tokens =
      u ++ firstPass rest ∧ textOf tokens = u ++ textOf rest ∧ rest.length ≤ tokens.length := by
  induction u generalizing tokens with
  | nil => exact ⟨tokens, rfl, rfl, le_rfl⟩
  | cons b u ih =>
    cases tokens with
    | nil =>
      rcases h with h | h <;> exact absurd (List.prefix_nil.mp h) (List.cons_ne_nil _ _)
    | cons t tokens =>
      have hfirst : firstPass (t :: tokens) = t.decoded ++ firstPass tokens := rfl
      have htext : textOf (t :: tokens) = utf8 t.char ++ textOf tokens := rfl
      rw [hfirst, htext] at h ⊢
      rcases plain_cases (hu b List.mem_cons_self) t with ⟨hd, hc⟩ | ⟨hd, hc⟩
      · rw [hd, hc, List.singleton_append, List.singleton_append, List.cons_prefix_cons,
          List.cons_prefix_cons] at h
        obtain ⟨rest, hrest, htext', hlen⟩ :=
          ih (fun c hc => hu c (List.mem_cons_of_mem _ hc)) (h.imp And.right And.right)
        refine ⟨rest, ?_, ?_, Nat.le_succ_of_le hlen⟩
        · rw [hd, List.singleton_append, hrest, List.cons_append]
        · rw [hc, List.singleton_append, htext', List.cons_append]
      · have hpre : [b] <+: b :: u := ⟨u, rfl⟩
        rcases h with h | h
        · exact absurd (hpre.trans h) (hd _)
        · exact absurd (hpre.trans h) (hc _)

theorem isPlain_name {e : Text × UInt8} (he : e ∈ names) : ∀ b ∈ e.1 ++ [59], IsPlain b := by
  have hall : ∀ e ∈ names, ∀ b ∈ e.1 ++ [59], b < 0x80 ∧ b ≠ 38 ∧ ∀ e ∈ names, b ≠ e.2 := by
    decide +kernel
  exact hall e he

/-- No reference begins another. -/
theorem find?_table {e : Text × UInt8} (he : e ∈ names) (rest : Text) :
    table.find? (fun x => x.1 <+: named e.1 ++ rest) = some (named e.1, e.2) := by
  have hapart : ∀ x ∈ names, ∀ y ∈ names,
      x.1 ++ [59] <+: y.1 ++ [59] ∨ y.1 ++ [59] <+: x.1 ++ [59] → x = y := by decide
  refine Lists.find?_eq_some_of_unique (List.mem_map_of_mem he)
    (decide_eq_true (List.prefix_append _ _)) ?_
  rintro y hy hpre
  obtain ⟨x, hx, rfl⟩ := List.mem_map.mp hy
  have hpre' := List.prefix_or_prefix_of_prefix (of_decide_eq_true hpre) (List.prefix_append _ rest)
  simp only [named, List.cons_prefix_cons, true_and] at hpre'
  rw [hapart x hx e he hpre']

/-- A character after which the text is read as before. -/
theorem spec_cons {t : Token} {tokens : List Token} {bytes : Text} (hnot : ¬Ambiguous t tokens)
    (htext : textOf (t :: tokens) = bytes ++ textOf tokens)
    (hdecoded : decoded (t :: tokens) = bytes ++ decoded tokens)
    (h : (Unambiguous tokens ∧ decoded tokens = textOf tokens) ∨
      (¬Unambiguous tokens ∧ (decoded tokens).length < (textOf tokens).length)) :
    (Unambiguous (t :: tokens) ∧ decoded (t :: tokens) = textOf (t :: tokens)) ∨
      (¬Unambiguous (t :: tokens) ∧
        (decoded (t :: tokens)).length < (textOf (t :: tokens)).length) := by
  rw [htext, hdecoded]
  rcases h with ⟨hun, heq⟩ | ⟨hun, hlt⟩
  · exact .inl ⟨⟨hnot, hun⟩, by rw [heq]⟩
  · refine .inr ⟨fun h => hun h.2, ?_⟩
    rw [List.length_append, List.length_append]
    omega

/-- **What becomes of a text.** It is read as it was written, or one of its ampersands and what
stands behind it is lost. -/
theorem decoded_spec (tokens : List Token) :
    (Unambiguous tokens ∧ decoded tokens = textOf tokens) ∨
      (¬Unambiguous tokens ∧ (decoded tokens).length < (textOf tokens).length) := by
  induction hn : tokens.length using Nat.strong_induction_on generalizing tokens with
  | _ n ih =>
    subst hn
    cases tokens with
    | nil => exact .inl ⟨trivial, rfl⟩
    | cons t tokens =>
      have hfirst : firstPass (t :: tokens) = t.decoded ++ firstPass tokens := rfl
      have htext : textOf (t :: tokens) = utf8 t.char ++ textOf tokens := rfl
      have hrest := ih tokens.length (Nat.lt_succ_self _) tokens rfl
      by_cases hs : t.spelling = .named
      · obtain ⟨e, he, hspell, hutf⟩ := named_cases hs
        have hbytes : t.decoded = named e.1 := by rw [Token.decoded, hs, ← hspell]
        refine spec_cons (fun h => h.2.1 hs) htext ?_ hrest
        rw [decoded, hfirst, hbytes, hutf]
        exact replaceAny_of_find (e := (named e.1, e.2)) (List.cons_ne_nil _ _) (find?_table he _)
      · have hbytes : t.decoded = utf8 t.char := decoded_of_ne hs
        by_cases hamp : t.char = '&'
        · have hutf : utf8 t.char = [38] := by rw [hamp]; rfl
          by_cases hcollapse : ∃ e ∈ names, e.1 ++ [59] <+: firstPass tokens
          · -- the ampersand and what stands behind it are taken for a reference
            obtain ⟨e, he, hpre⟩ := hcollapse
            obtain ⟨rest, hfirst', htext', hlen⟩ := prefix_firstPass (isPlain_name he) (.inl hpre)
            have hdecoded : decoded (t :: tokens) = e.2 :: decoded rest := by
              rw [decoded, hfirst, hbytes, hutf, hfirst', ← List.append_assoc]
              exact replaceAny_of_find (e := (named e.1, e.2)) (List.cons_ne_nil _ _)
                (find?_table he _)
            have hle : (decoded rest).length ≤ (textOf rest).length := by
              rcases ih rest.length (Nat.lt_succ_of_le hlen) rest rfl with ⟨-, heq⟩ | ⟨-, hlt⟩
              · exact heq ▸ le_rfl
              · exact hlt.le
            refine .inr ⟨fun h => h.1 ⟨hamp, hs, e, he, htext' ▸ List.prefix_append _ _⟩, ?_⟩
            rw [hdecoded, htext, hutf, htext']
            simp only [List.length_cons, List.length_append, List.length_nil]
            omega
          · refine spec_cons (fun h => hcollapse ?_) htext ?_ hrest
            · obtain ⟨e, he, hpre⟩ := h.2.2
              obtain ⟨rest, hfirst', -, -⟩ := prefix_firstPass (isPlain_name he) (.inr hpre)
              exact ⟨e, he, hfirst' ▸ List.prefix_append _ _⟩
            · rw [decoded, hfirst, hbytes, hutf, List.singleton_append, replaceAny_of_none]
              · rfl
              · rintro x hx hpre
                obtain ⟨e, he, rfl⟩ := List.mem_map.mp hx
                exact hcollapse ⟨e, he, (List.cons_prefix_cons.mp hpre).2⟩
        · refine spec_cons (fun h => hamp h.1) htext ?_ hrest
          rw [decoded, hfirst, hbytes]
          refine replaceAny_append_of_notMem led_table (notMem_utf8 (by decide) fun he => hamp ?_)
          exact Char.ext (UInt32.toNat_inj.mp he)

theorem token_decoded_ne_nil (t : Token) : t.decoded ≠ [] := by
  by_cases hs : t.spelling = .named
  · obtain ⟨e, -, hspell, -⟩ := named_cases hs
    rw [Token.decoded, hs]
    exact hspell ▸ List.cons_ne_nil _ _
  · exact decoded_of_ne hs ▸ utf8_ne_nil _

theorem decoded_eq_nil_iff (tokens : List Token) : decoded tokens = [] ↔ textOf tokens = [] := by
  cases tokens with
  | nil => exact iff_of_true rfl rfl
  | cons t tokens =>
    refine iff_of_false (replaceAny_ne_nil ?_) ?_
    · exact List.append_ne_nil_of_left_ne_nil (token_decoded_ne_nil t) _
    · exact List.append_ne_nil_of_left_ne_nil (utf8_ne_nil t.char) _

/-- What a text begins with is read, when no reference can come out of it. -/
theorem prefix_decoded {u : Text} (hu : ∀ b ∈ u, IsPlain b) (tokens : List Token) :
    u <+: decoded tokens ↔ u <+: textOf tokens := by
  constructor
  · intro h
    have hfirst : u <+: firstPass tokens := by
      refine prefix_of_prefix_replaceAny (fun e he => (led_table e he).ne_nil)
        (fun e he hmem => ?_) h
      obtain ⟨x, hx, rfl⟩ := List.mem_map.mp he
      exact (hu _ hmem).2.2 x hx rfl
    obtain ⟨rest, -, htext, -⟩ := prefix_firstPass hu (.inl hfirst)
    exact htext ▸ List.prefix_append _ _
  · intro h
    obtain ⟨rest, hfirst, -, -⟩ := prefix_firstPass hu (.inr h)
    rw [decoded, hfirst, replaceAny_append_of_notMem led_table fun hmem => (hu _ hmem).2.1 rfl]
    exact List.prefix_append _ _

/-! ### What is found in a document -/

theorem isBlankChar_of_mem {c : Char} {b : UInt8} (hb : b ∈ utf8 c) (hspace : isSpace b = true) :
    isBlankChar c = true := by
  rw [isSpace, decide_eq_true_eq] at hspace
  have hlt : b < 0x80 := by rcases hspace with rfl | rfl | rfl | rfl | rfl <;> decide
  rw [isBlankChar, (utf8_of_mem hb hlt).2]
  rcases hspace with rfl | rfl | rfl | rfl | rfl <;> decide

/-- A spelling has no blank at its ends, and no bracket in it. -/
theorem spell_spec (t : Token) : t.spell ≠ [] ∧ 60 ∉ t.spell ∧ (isBlankChar t.char = false →
    ∀ b, b ∈ t.spell.head? ∨ b ∈ t.spell.getLast? → isSpace b = false) := by
  have hends (text : Text) (b : UInt8)
      (hb : b ∈ (38 :: (text ++ [59])).head? ∨ b ∈ (38 :: (text ++ [59])).getLast?) :
      isSpace b = false := by
    rcases hb with hb | hb
    · obtain rfl : 38 = b := Option.some.inj hb
      rfl
    · rw [← List.cons_append, List.getLast?_concat] at hb
      obtain rfl : 59 = b := Option.some.inj hb
      rfl
  have hfits := t.fits
  cases hs : t.spelling with
  | plain =>
    have hspell : t.spell = utf8 t.char := by rw [Token.spell, hs]
    rw [hs] at hfits
    rw [hspell]
    refine ⟨utf8_ne_nil _, notMem_utf8 (by decide) fun he => hfits.1 ?_, fun hblank b hb => ?_⟩
    · exact Char.ext (UInt32.toNat_inj.mp he)
    · have hmem : b ∈ utf8 t.char :=
        hb.elim List.mem_of_mem_head? fun hb => List.mem_of_mem_getLast? hb
      by_contra hspace
      rw [isBlankChar_of_mem hmem (Bool.not_eq_false _ ▸ hspace)] at hblank
      cases hblank
  | named =>
    obtain ⟨e, he, hspell, -⟩ := named_cases hs
    have hnone : ∀ x ∈ names, 60 ∉ named x.1 := by decide
    rw [hspell]
    exact ⟨List.cons_ne_nil _ _, hnone e he, fun _ b hb => hends _ b hb⟩
  | decimal digits =>
    have hspell : t.spell = 38 :: ((35 :: digits) ++ [59]) := by rw [Token.spell, hs]; rfl
    rw [hs] at hfits
    rw [hspell]
    refine ⟨List.cons_ne_nil _ _, fun hmem => ?_, fun _ b hb => hends _ b hb⟩
    simp only [List.mem_cons, List.mem_append, List.not_mem_nil, or_false] at hmem
    rcases hmem with h | (h | h) | h
    · exact absurd h (by decide)
    · exact absurd h (by decide)
    · exact absurd (hfits.2.1 _ h) (by decide)
    · exact absurd h (by decide)
  | hex digits =>
    have hspell : t.spell = 38 :: ((35 :: 120 :: digits) ++ [59]) := by rw [Token.spell, hs]; rfl
    rw [hs] at hfits
    rw [hspell]
    refine ⟨List.cons_ne_nil _ _, fun hmem => ?_, fun _ b hb => hends _ b hb⟩
    simp only [List.mem_cons, List.mem_append, List.not_mem_nil, or_false] at hmem
    rcases hmem with h | (h | h | h) | h
    · exact absurd h (by decide)
    · exact absurd h (by decide)
    · exact absurd h (by decide)
    · exact absurd (hfits.2.1 _ h) (by decide)
    · exact absurd h (by decide)

theorem bracket_notMem_spell (tokens : List Token) : 60 ∉ spell tokens := by
  rw [spell, List.mem_flatMap]
  rintro ⟨t, -, hmem⟩
  exact (spell_spec t).2.1 hmem

/-- There is nothing to strip. -/
theorem strip_spell (w : Written) : strip (spell w.tokens) = spell w.tokens := by
  cases htokens : w.tokens with
  | nil => rfl
  | cons t tokens =>
    have hne : spell (t :: tokens) ≠ [] := List.append_ne_nil_of_left_ne_nil (spell_spec t).1 _
    have hhead := w.head t (by rw [htokens]; rfl)
    obtain ⟨init, last, hlast⟩ : ∃ init last, t :: tokens = init ++ [last] :=
      ⟨_, _, (List.dropLast_append_getLast (List.cons_ne_nil t tokens)).symm⟩
    have hblank := w.last last (by rw [htokens, hlast, List.getLast?_concat]; rfl)
    refine strip_eq_self hne ?_ ?_
    · refine (spell_spec t).2.2 hhead _ (.inl ?_)
      rw [Option.mem_def, ← List.head?_eq_some_head hne, spell, List.flatMap_cons,
        List.head?_append_of_ne_nil _ (spell_spec t).1]
    · refine (spell_spec last).2.2 hblank _ (.inr ?_)
      rw [Option.mem_def, ← List.getLast?_eq_some_getLast hne, hlast, spell, List.flatMap_append,
        List.flatMap_singleton, List.getLast?_append_of_ne_nil _ (spell_spec last).1]

theorem bracketed_openTag (t : Tag) : Bracketed 60 62 (openTag t.word) :=
  ⟨t.word, rfl, by cases t <;> decide, by cases t <;> decide⟩

theorem bracketed_closeTag (t : Tag) : Bracketed 60 62 (closeTag t.word) :=
  ⟨47 :: t.word, rfl, by cases t <;> decide, by cases t <;> decide⟩

theorem bracketed_engineOpen : Bracketed 60 62 engineOpen :=
  ⟨ofString "engine", rfl, by decide, by decide⟩

theorem bracketed_engineClose : Bracketed 60 62 engineClose :=
  ⟨47 :: ofString "engine", rfl, by decide, by decide⟩

/-- A pattern in brackets is not in a text without brackets. -/
theorem not_infix_of_notMem {pat text : Text} (h : Bracketed 60 62 pat) (htext : 60 ∉ text) :
    ¬pat <:+: text := by
  obtain ⟨mid, rfl, -⟩ := h
  exact fun hin => htext (hin.subset List.mem_cons_self)

/-- No tag is another one. -/
theorem not_infix_tags (t t' : Tag) : (t ≠ t' → ¬openTag t.word <:+: openTag t'.word) ∧
    ¬openTag t.word <:+: closeTag t'.word ∧ ¬openTag t.word <:+: engineOpen ∧
      ¬engineClose <:+: openTag t'.word ∧ ¬engineClose <:+: closeTag t'.word ∧
        ¬engineClose <:+: engineOpen := by
  cases t <;> cases t' <;> decide

/-- A pattern that is in none of the parts of an item is not in the item. -/
theorem not_infix_render {pat : Text} (h : Bracketed 60 62 pat) {i : Item}
    (hopen : ¬pat <:+: openTag i.tag.word) (hclose : ¬pat <:+: closeTag i.tag.word)
    (hafter : ¬pat <:+: i.after) : ¬pat <:+: i.render := by
  have hlast (t : Tag) : (∀ c ∈ (openTag t.word).getLast?, c = 62) ∧
      ∀ c ∈ (closeTag t.word).getLast?, c = 62 := by
    cases t <;> decide +kernel
  refine h.not_infix_append (.inr (hlast _).1) hopen ?_
  refine h.not_infix_append (.inl ?_) (not_infix_of_notMem h (bracket_notMem_spell _)) ?_
  · exact fun c hc => (Option.some.inj hc).symm
  · exact h.not_infix_append (.inr (hlast _).2) hclose hafter

theorem not_infix_items {pat : Text} (h : Bracketed 60 62 pat) {items : List Item}
    (hitems : ∀ i ∈ items, ¬pat <:+: i.render) : ¬pat <:+: items.flatMap Item.render := by
  induction items with
  | nil => exact not_infix_of_notMem h List.not_mem_nil
  | cons i items ih =>
    rw [List.flatMap_cons]
    refine h.not_infix_append (.inl ?_) (hitems i List.mem_cons_self)
      (ih fun x hx => hitems x (List.mem_cons_of_mem _ hx))
    cases items with
    | nil => exact fun c hc => by cases hc
    | cons x items => exact fun c hc => (Option.some.inj hc).symm

/-- What stands before an item does not have its tag. -/
theorem not_infix_front {before : Text} (hfiller : IsFiller before) {items : List Item} {t : Tag}
    (ht : ∀ i ∈ items, t ≠ i.tag) :
    ¬openTag t.word <:+: engineOpen ++ (before ++ items.flatMap Item.render) := by
  have hb := bracketed_openTag t
  refine hb.not_infix_append (.inr (by decide +kernel)) (not_infix_tags t t).2.2.1 ?_
  refine hb.not_infix_append (.inl ?_) (hfiller.1 t) (not_infix_items hb fun i hi => ?_)
  · cases items with
    | nil => exact fun c hc => by cases hc
    | cons x items => exact fun c hc => (Option.some.inj hc).symm
  · exact not_infix_render hb ((not_infix_tags t i.tag).1 (ht i hi)) (not_infix_tags t i.tag).2.1
      (i.filler.1 t)

/-- **A text is found in its tags.** -/
theorem tag_body (e : Element) (t : Tag) :
    tag (engineOpen ++ e.body) t.word = decoded (e.text t) := by
  rw [Element.text]
  cases hfind : e.items.find? (·.tag = t) with
  | none =>
    have hnone : ∀ i ∈ e.items, t ≠ i.tag := fun i hi heq => by
      have := List.find?_eq_none.mp hfind i hi
      exact this (decide_eq_true heq.symm)
    rw [tag, Element.body, cut_eq_none (not_infix_front e.filler hnone)]
    rfl
  | some i =>
    obtain ⟨htag, front, back, hitems, hfront⟩ := List.find?_eq_some_iff_append.mp hfind
    have htag : i.tag = t := of_decide_eq_true htag
    have hnone : ∀ x ∈ front, t ≠ x.tag := fun x hx heq => by
      have := hfront x hx
      rw [heq, decide_eq_true rfl] at this
      cases this
    have hblock : engineOpen ++ e.body =
        (engineOpen ++ (e.before ++ front.flatMap Item.render)) ++ (openTag t.word ++
          (spell i.text.tokens ++ (closeTag t.word ++ (i.after ++ back.flatMap Item.render)))) := by
      simp only [Element.body, hitems, List.flatMap_append, List.flatMap_cons, Item.render, htag,
        List.append_assoc]
    rw [tag, hblock, cut_append (bracketed_openTag t).led (not_infix_front e.filler hnone)]
    dsimp only
    rw [List.drop_left, cut_append (bracketed_closeTag t).led
      (not_infix_of_notMem (bracketed_closeTag t) (bracket_notMem_spell _))]
    dsimp only
    rw [strip_spell, unescape_spell]

/-- The engine that is read. -/
def Element.read (e : Element) : EngineInfo where
  framework := ofString "ibus"
  name := decoded (e.text .name)
  label :=
    if decoded (e.text .longname) = [] then decoded (e.text .name) else decoded (e.text .longname)
  symbol := decoded (e.text .symbol)
  language := decoded (e.text .language)

theorem engineOf_body (e : Element) : engineOf (engineOpen ++ e.body) = e.read := by
  have hname : tag _ (ofString "name") = _ := tag_body e .name
  have hlongname : tag _ (ofString "longname") = _ := tag_body e .longname
  have hsymbol : tag _ (ofString "symbol") = _ := tag_body e .symbol
  have hlanguage : tag _ (ofString "language") = _ := tag_body e .language
  rw [engineOf, hname, hlongname, hsymbol, hlanguage]
  rfl

theorem not_infix_body (e : Element) : ¬engineClose <:+: engineOpen ++ e.body := by
  have hb := bracketed_engineClose
  refine hb.not_infix_append (.inr (by decide +kernel)) (not_infix_tags .name .name).2.2.2.2.2 ?_
  refine hb.not_infix_append (.inl ?_) e.filler.2 (not_infix_items hb fun i _ => ?_)
  · cases e.items with
    | nil => exact fun c hc => by cases hc
    | cons x items => exact fun c hc => (Option.some.inj hc).symm
  · have htags := (not_infix_tags i.tag i.tag).2.2.2
    exact not_infix_render hb htags.1 htags.2.1 i.filler.2

/-- The engines are found one after the other. -/
theorem parseIbusComponent_elements {before : Text} (hbefore : ¬engineOpen <:+: before)
    {elements : List (Element × Text)} (hafter : ∀ e ∈ elements, ¬engineOpen <:+: e.2) :
    parseIbusComponent (before ++ renderElements elements) =
      (elements.map fun e => e.1.read).filter (·.isKept) := by
  induction elements generalizing before with
  | nil =>
    have hnone : cut engineOpen (before ++ renderElements []) = none := by
      rw [renderElements, List.flatMap_nil, List.append_nil]
      exact cut_eq_none hbefore
    rw [parseIbusComponent]
    split
    · rfl
    · next h => rw [hnone] at h; cases h
  | cons e elements ih =>
    have hrest := ih (hafter e List.mem_cons_self) fun x hx => hafter x (List.mem_cons_of_mem _ hx)
    have hopen : cut engineOpen (before ++ renderElements (e :: elements)) =
        some (before, engineOpen ++ (e.1.body ++ (engineClose ++ (e.2 ++
          renderElements elements)))) := by
      rw [renderElements, List.flatMap_cons, List.append_assoc, List.append_assoc,
        List.append_assoc]
      exact cut_append bracketed_engineOpen.led hbefore _
    have hclose : cut engineClose (engineOpen ++ (e.1.body ++ (engineClose ++ (e.2 ++
        renderElements elements)))) =
          some (engineOpen ++ e.1.body, engineClose ++ (e.2 ++ renderElements elements)) := by
      rw [← List.append_assoc]
      exact cut_append bracketed_engineClose.led (not_infix_body e.1) _
    rw [parseIbusComponent]
    split
    · next h => rw [hopen] at h; cases h
    · next h =>
      rw [hopen] at h
      obtain ⟨rfl, rfl⟩ := Prod.mk.inj (Option.some.inj h)
      split
      · next h' => rw [hclose] at h'; cases h'
      · next h' =>
        rw [hclose] at h'
        obtain ⟨rfl, rfl⟩ := Prod.mk.inj (Option.some.inj h')
        have hdrop : (engineClose ++ (e.2 ++ renderElements elements)).drop 9 =
            e.2 ++ renderElements elements := rfl
        rw [hdrop, hrest, engineOf_body, List.map_cons, List.filter_cons]
        split <;> rfl

theorem parseIbusComponent_render (d : Document) : parseIbusComponent d.render =
    (d.elements.map fun e => e.1.read).filter (·.isKept) :=
  parseIbusComponent_elements d.before_free d.after_free

/-! ### What is read and what is meant -/

/-- The engines that a component has, as they are meant. -/
def Document.expected (d : Document) : List EngineInfo :=
  (d.elements.map fun e => e.1.meant).filter (·.isKept)

theorem decoded_eq_iff (tokens : List Token) :
    decoded tokens = textOf tokens ↔ Unambiguous tokens := by
  rcases decoded_spec tokens with ⟨hun, heq⟩ | ⟨hun, hlt⟩
  · exact iff_of_true heq hun
  · exact iff_of_false (fun heq => absurd (congrArg List.length heq) hlt.ne) hun

/-- The same engines are left out. -/
theorem isKept_read (e : Element) : e.read.isKept = e.meant.isKept := by
  have hplain : ∀ b ∈ ofString "xkb:", b < 0x80 ∧ b ≠ 38 ∧ ∀ e ∈ names, b ≠ e.2 := by
    decide +kernel
  have hpre : (ofString "xkb:").isPrefixOf (decoded (e.text .name)) =
      (ofString "xkb:").isPrefixOf (textOf (e.text .name)) := by
    rw [Bool.eq_iff_iff, List.isPrefixOf_iff_prefix, List.isPrefixOf_iff_prefix]
    exact prefix_decoded hplain _
  rw [EngineInfo.isKept, EngineInfo.isKept, Element.read, Element.meant]
  dsimp only
  rw [hpre, decide_eq_decide.mpr (not_congr (decoded_eq_nil_iff (e.text .name)))]

theorem read_eq_meant_iff (e : Element) :
    e.read = e.meant ↔ ∀ t, Unambiguous (e.text t) := by
  constructor
  · intro h t
    have hname : decoded (e.text .name) = textOf (e.text .name) := congrArg EngineInfo.name h
    have hlabel : (if decoded (e.text .longname) = [] then decoded (e.text .name)
        else decoded (e.text .longname)) =
        if textOf (e.text .longname) = [] then textOf (e.text .name)
          else textOf (e.text .longname) := congrArg EngineInfo.label h
    cases t with
    | name => exact (decoded_eq_iff _).mp hname
    | symbol => exact (decoded_eq_iff _).mp (congrArg EngineInfo.symbol h)
    | language => exact (decoded_eq_iff _).mp (congrArg EngineInfo.language h)
    | longname =>
      refine (decoded_eq_iff _).mp ?_
      by_cases hempty : textOf (e.text .longname) = []
      · rw [hempty]
        exact (decoded_eq_nil_iff _).mpr hempty
      · rwa [if_neg hempty, if_neg (mt (decoded_eq_nil_iff _).mp hempty)] at hlabel
  · intro h
    have heq (t : Tag) : decoded (e.text t) = textOf (e.text t) := (decoded_eq_iff _).mpr (h t)
    rw [Element.read, Element.meant, heq, heq, heq, heq]

/-- **When the engines are read as they were written.** The engines of a component are found, in
order and with exactly their texts, exactly when no ampersand of an engine that is kept is written
as a number and comes to stand before what makes a named reference of it. -/
theorem parse_asWritten_iff (d : Document) : parseIbusComponent d.render = d.expected ↔
    ∀ e ∈ d.elements, e.1.meant.isKept = true → ∀ t, Unambiguous (e.1.text t) := by
  rw [parseIbusComponent_render, Document.expected,
    Lists.filter_map_eq_iff fun e : Element × Text => isKept_read e.1]
  simp only [read_eq_meant_iff]

/-- The name is `&lt;`, with its ampersand as a number. -/
def sampleTokens : List Token :=
  [⟨'&', .decimal (ofString "38"), by decide, by decide, by decide +kernel, by decide⟩,
    ⟨'l', .plain, by decide, by decide, by decide⟩, ⟨'t', .plain, by decide, by decide, by decide⟩,
    ⟨';', .plain, by decide, by decide, by decide⟩]

theorem isFiller_nil : IsFiller [] :=
  ⟨fun t => by cases t <;> decide, by decide⟩

def sampleElement : Element where
  before := []
  items := [⟨.name, ⟨sampleTokens, by decide, by decide⟩, [], isFiller_nil⟩]
  filler := isFiller_nil
  nodup := List.pairwise_singleton _ _

theorem not_asWritten_ampersand :
    ¬∀ d : Document, parseIbusComponent d.render = d.expected := by
  intro h
  have hsample := h ⟨[], [(sampleElement, [])], by decide +kernel, by decide +kernel⟩
  rw [parseIbusComponent_render] at hsample
  exact absurd hsample (by decide)

end Ime.Component

end SingularityShell
