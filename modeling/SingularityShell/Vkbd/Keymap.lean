import Mathlib.Data.Nat.Digits.Defs
import Mathlib.Data.UInt
import SingularityShell.Lib.Ascii
import SingularityShell.Lib.Lists

/-!
# Keymaps of the virtual keyboard

The user's layout as the library of keymaps gives it, the table in which the keys of its characters
are looked up, and the keymap that is generated for the other characters.

## Main definitions

* `Vkbd.Xkb`, `Vkbd.Keymap` — what the library of keymaps promises
* `Vkbd.layoutTable` — the keys of the characters of a layout
* `Vkbd.makeKeymap` — the keymap that is generated for a batch of characters
* `Vkbd.decodeKey` — what an application reads when a key is pressed

## Main results

* `Vkbd.decodeKey_layout` — a key from the table gives the character that it was looked up for
* `Vkbd.decodeKey_custom` — and so does a key of a generated keymap
-/

namespace SingularityShell

namespace Vkbd

open Ascii

/-! ### The library -/

/-- `XKB_KEY_Return` -/
def keyReturn : ℕ := 0xff0d

/-- `XKB_KEY_Tab` -/
def keyTab : ℕ := 0xff09

def hexDigit (d : ℕ) : UInt8 := if d < 10 then (48 + d).toUInt8 else (55 + d).toUInt8

/-- `%04X` -/
def hexFour (n : ℕ) : Text :=
  let digits := ((Nat.digits 16 n).map hexDigit).reverse
  List.replicate (4 - digits.length) 48 ++ digits

/-- The name of the keysym of a character. -/
def unicodeName (c : Char) : Text := 85 :: hexFour c.toNat

/-- A character that a keysym can stand for by its number. -/
def Typable (c : Char) : Prop := 0x20 ≤ c.toNat ∧ c.toNat ≤ 0x7e ∨ 0xa0 ≤ c.toNat

instance (c : Char) : Decidable (Typable c) := inferInstanceAs (Decidable (_ ∨ _))

/-- The keysym of a character by its number. -/
def unicodeKeysym (c : Char) : ℕ := if c.toNat < 0x100 then c.toNat else 0x1000000 + c.toNat

/-- The library's names of keysyms and their characters. -/
structure Xkb where
  keysymFromName : Text → ℕ
  keysymToUtf32 : ℕ → ℕ
  fromName_return : keysymFromName (ofString "Return") = keyReturn
  fromName_tab : keysymFromName (ofString "Tab") = keyTab
  fromName_unicode : ∀ c, Typable c → keysymFromName (unicodeName c) = unicodeKeysym c
  toUtf32_unicode : ∀ c, Typable c → keysymToUtf32 (unicodeKeysym c) = c.toNat

/-- A compiled keymap: the keysyms of each level of each key, the modifiers that select a level, and
the level that modifiers select. -/
structure Keymap where
  minKeycode : ℕ
  maxKeycode : ℕ
  numLevels : ℕ → ℕ
  syms : ℕ → ℕ → List ℕ
  mods : ℕ → ℕ → List UInt32
  level : ℕ → UInt32 → ℕ
  level_mods : ∀ code l, ∀ mask ∈ mods code l, level code mask = l

/-! ### The layout -/

variable (xkb : Xkb)

/-- The character of a keysym, or 0. -/
def charOf (sym : ℕ) : ℕ :=
  if sym = keyReturn then 10 else if sym = keyTab then 9 else xkb.keysymToUtf32 sym

structure LayoutKey where
  code : UInt32
  mask : UInt32
  deriving DecidableEq

abbrev Table := List (ℕ × LayoutKey)

def lookup (table : Table) (cp : ℕ) : Option LayoutKey := (table.find? (·.1 = cp)).map (·.2)

/-- The body of the inner loop of `singularity_type_text_set_layout`. -/
def addLevel (k : Keymap) (code : ℕ) (table : Table) (level : ℕ) : Table :=
  match k.syms code level, k.mods code level with
  | [sym], mask :: _ =>
    let cp := charOf xkb sym
    if cp = 0 ∨ (lookup table cp).isSome then table
    else table ++ [(cp, ⟨UInt32.ofNat code - 8, mask⟩)]
  | _, _ => table

/-- The body of the outer loop. -/
def addCode (k : Keymap) (table : Table) (code : ℕ) : Table :=
  (List.range (k.numLevels code)).foldl (addLevel xkb k code) table

/-- `layout_keys` -/
def layoutTable (k : Keymap) : Table :=
  (List.range' k.minKeycode (min k.maxKeycode 255 + 1 - k.minKeycode)).foldl (addCode xkb k) []

/-! ### Generated keymaps -/

/-- `BATCH_KEYS` -/
def batchKeys : ℕ := 240

/-- The keymap file that `make_keymap_fd` writes: the numbers of the key names with their keycodes
and their symbols. -/
structure KeymapFile where
  minimum : ℕ := 8
  maximum : ℕ := 255
  keycodes : List (ℕ × ℕ)
  symbols : List (ℕ × Text)
  deriving DecidableEq

/-- `keysym_name` -/
def keysymName (c : Char) : Text :=
  if c = '\n' ∨ c = '\r' then ofString "Return"
  else if c = '\t' then ofString "Tab" else unicodeName c

/-- `make_keymap_fd` -/
def makeKeymap (keys : List Char) : KeymapFile where
  keycodes := keys.zipIdx.map fun (_, i) => (i, i + 9)
  symbols := keys.zipIdx.map fun (c, i) => (i, keysymName c)

/-! ### Reading -/

/-- A keymap that is uploaded. -/
inductive Map where
  | layout (k : Keymap)
  | custom (file : KeymapFile)

/-- The character that an application reads when a key is pressed with modifiers, or 0. -/
def decodeKey (key mask : UInt32) : Map → ℕ
  | .layout k =>
    let code := (key + 8).toNat
    match k.syms code (k.level code mask) with
    | [sym] => charOf xkb sym
    | _ => 0
  | .custom file =>
    let code := (key + 8).toNat
    if file.minimum ≤ code ∧ code ≤ file.maximum then
      match file.keycodes.find? (·.2 = code) with
      | some (name, _) =>
        match file.symbols.find? (·.1 = name) with
        | some (_, sym) => charOf xkb (xkb.keysymFromName sym)
        | none => 0
      | none => 0
    else 0

/-! ### A key of the layout gives its character -/

/-- The key of the entry gives the character of the entry. -/
def Decodes (k : Keymap) (entry : ℕ × LayoutKey) : Prop :=
  decodeKey xkb entry.2.code entry.2.mask (.layout k) = entry.1

theorem toNat_keycode {code : ℕ} (h : code ≤ 255) : (UInt32.ofNat code - 8 + 8).toNat = code := by
  rw [UInt32.sub_add_cancel]
  exact UInt32.toNat_ofNat_of_lt' (by rw [UInt32.size]; omega)

theorem decodes_addLevel {k : Keymap} {code : ℕ} (hcode : code ≤ 255) {table : Table}
    (h : ∀ entry ∈ table, Decodes xkb k entry) (level : ℕ) :
    ∀ entry ∈ addLevel xkb k code table level, Decodes xkb k entry := by
  rw [addLevel]
  split
  · next sym mask masks hsyms hmods =>
    dsimp only
    split_ifs
    · exact h
    · intro entry hentry
      rcases List.mem_append.mp hentry with hold | hnew
      · exact h entry hold
      · rw [List.mem_singleton.mp hnew, Decodes, decodeKey]
        have hlevel : k.level code mask = level :=
          k.level_mods code level mask (hmods ▸ List.mem_cons_self)
        dsimp only
        rw [toNat_keycode hcode, hlevel, hsyms]
  · exact h

theorem decodes_addCode {k : Keymap} {table : Table} {code : ℕ} (hcode : code ≤ 255)
    (h : ∀ entry ∈ table, Decodes xkb k entry) :
    ∀ entry ∈ addCode xkb k table code, Decodes xkb k entry :=
  List.foldlRecOn (motive := fun table => ∀ entry ∈ table, Decodes xkb k entry) _ _ h
    fun _ hi level _ => decodes_addLevel xkb hcode hi level

theorem decodes_layoutTable (k : Keymap) : ∀ entry ∈ layoutTable xkb k, Decodes xkb k entry := by
  refine List.foldlRecOn (motive := fun table => ∀ entry ∈ table, Decodes xkb k entry) _ _
    (fun _ hnil => nomatch hnil) fun _ hi code hcode => ?_
  refine decodes_addCode xkb ?_ hi
  obtain ⟨hmin, hmax⟩ := List.mem_range'_1.mp hcode
  omega

/-- **A key from the table gives the character that it was looked up for.** -/
theorem decodeKey_layout {k : Keymap} {cp : ℕ} {key : LayoutKey}
    (h : lookup (layoutTable xkb k) cp = some key) :
    decodeKey xkb key.code key.mask (.layout k) = cp := by
  obtain ⟨entry, hfound, rfl⟩ := Option.map_eq_some_iff.mp h
  have hcp : entry.1 = cp := by simpa using List.find?_some hfound
  exact (decodes_layoutTable xkb k entry (List.mem_of_find?_eq_some hfound)).trans hcp

/-! ### And so does a key of a generated keymap -/

/-- A character as it is typed: a carriage return is a newline. -/
def newline (c : Char) : ℕ := if c = '\r' then 10 else c.toNat

/-- The characters that a generated keymap can hold. -/
def Named (c : Char) : Prop := c = '\n' ∨ c = '\r' ∨ c = '\t' ∨ Typable c

instance (c : Char) : Decidable (Named c) := inferInstanceAs (Decidable (_ ∨ _))

theorem charOf_keysymName {c : Char} (h : Named c) :
    charOf xkb (xkb.keysymFromName (keysymName c)) = newline c := by
  rw [keysymName, newline]
  by_cases hreturn : c = '\n' ∨ c = '\r'
  · rw [if_pos hreturn, xkb.fromName_return, charOf, if_pos rfl]
    rcases hreturn with rfl | rfl
    · rfl
    · rfl
  obtain ⟨hnewline, hcarriage⟩ := not_or.mp hreturn
  rw [if_neg hreturn, if_neg hcarriage]
  by_cases htab : c = '\t'
  · rw [if_pos htab, xkb.fromName_tab, charOf, if_neg (by decide), if_pos rfl, htab]
    rfl
  · rw [if_neg htab]
    have htypable : Typable c :=
      ((h.resolve_left hnewline).resolve_left hcarriage).resolve_left htab
    have hreturn : unicodeKeysym c ≠ keyReturn := by
      rw [unicodeKeysym, keyReturn]
      split_ifs <;> omega
    have htab : unicodeKeysym c ≠ keyTab := by
      rw [unicodeKeysym, keyTab]
      split_ifs <;> omega
    rw [xkb.fromName_unicode c htypable, charOf, if_neg hreturn, if_neg htab,
      xkb.toUtf32_unicode c htypable]

/-- **A key of a generated keymap gives its character.** -/
theorem decodeKey_custom {keys : List Char} (hlen : keys.length ≤ batchKeys) {i : ℕ}
    (hi : i < keys.length) (hnamed : Named keys[i]) :
    decodeKey xkb (UInt32.ofNat i + 1) 0 (.custom (makeKeymap keys)) = newline keys[i] := by
  have hcode : (UInt32.ofNat i + 1 + 8).toNat = i + 9 := by
    rw [batchKeys] at hlen
    rw [UInt32.toNat_add, UInt32.toNat_add,
      UInt32.toNat_ofNat_of_lt' (by rw [UInt32.size]; omega)]
    show ((i + 1) % 2 ^ 32 + 8) % 2 ^ 32 = i + 9
    omega
  have hkeycode : (makeKeymap keys).keycodes.find? (·.2 = i + 9) = some (i, i + 9) :=
    Lists.find?_zipIdx hi (by simp) fun c j hj => by simpa using hj
  have hsymbol : (makeKeymap keys).symbols.find? (·.1 = i) = some (i, keysymName keys[i]) :=
    Lists.find?_zipIdx hi (by simp) fun c j hj => by simpa using hj
  have hrange : (makeKeymap keys).minimum ≤ i + 9 ∧ i + 9 ≤ (makeKeymap keys).maximum := by
    rw [batchKeys] at hlen
    show 8 ≤ i + 9 ∧ i + 9 ≤ 255
    omega
  simp only [decodeKey, hcode, if_pos hrange, hkeycode, hsymbol]
  exact charOf_keysymName xkb hnamed

end Vkbd

end SingularityShell
