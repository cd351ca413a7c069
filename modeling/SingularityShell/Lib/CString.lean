import Mathlib.Data.List.TakeWhile
import SingularityShell.Lib.Ascii

/-!
# Strings of C

What the string functions of the C library make of bytes.

## Main definitions

* `CString.cstr` — the string at an address
* `CString.snprintf` — a text in a buffer of fixed size
* `CString.fgetsAll` — the texts that a loop over `fgets` reads
* `CString.strtok`, `CString.strtokAll` — one token and all of them

## Main results

* `CString.fgetsAll_unlines` — lines that fit in the buffer are read whole
* `CString.strtokAll_intercalate` — fields that are not empty are the tokens
-/

namespace SingularityShell

namespace CString

open Ascii

/-- The string at the start of some bytes, which ends at the first NUL. -/
def cstr (bytes : Text) : Text := bytes.takeWhile (· ≠ 0)

/-- What `snprintf` leaves of a text in a buffer of `size` bytes. -/
def snprintf (size : ℕ) (text : Text) : Text := text.take (size - 1)

/-- The texts that `while (fgets(line, size, f))` reads: each ends after a newline, after
`size - 1` bytes or at the end of the file. `line` holds what the current call has read. -/
def fgetsFrom (size : ℕ) (line : Text) : Text → List Text
  | [] => if line = [] then [] else [line]
  | b :: file =>
    if b = 10 ∨ line.length + 2 = size then (line ++ [b]) :: fgetsFrom size [] file
    else fgetsFrom size (line ++ [b]) file

def fgetsAll (size : ℕ) (file : Text) : List Text := fgetsFrom size [] file

/-- `strtok_r`: the delimiters in front are skipped, and the one after the token is dropped. -/
def strtok (delim : UInt8) (text : Text) : Option (Text × Text) :=
  match text.dropWhile (· = delim) with
  | [] => none
  | b :: rest => some (b :: rest.takeWhile (· ≠ delim), (rest.dropWhile (· ≠ delim)).tail)

theorem length_strtok {delim : UInt8} {text token rest : Text}
    (h : strtok delim text = some (token, rest)) : rest.length < text.length := by
  have hdrop : (text.dropWhile (· = delim)).length ≤ text.length :=
    (List.dropWhile_suffix _).length_le
  rw [strtok] at h
  split at h
  · cases h
  · next b s hs =>
    have htail : (s.dropWhile (· ≠ delim)).tail.length ≤ s.length :=
      (List.length_tail ▸ Nat.sub_le _ 1).trans (List.dropWhile_suffix _).length_le
    obtain ⟨-, rfl⟩ := Prod.mk.inj (Option.some.inj h)
    rw [hs, List.length_cons] at hdrop
    omega

/-- The tokens that a loop over `strtok_r` gives. -/
def strtokAll (delim : UInt8) (text : Text) : List Text :=
  match _h : strtok delim text with
  | none => []
  | some (token, rest) => token :: strtokAll delim rest
termination_by text.length
decreasing_by exact length_strtok _h

/-! ### Texts that are short enough -/

theorem snprintf_of_lt {size : ℕ} {text : Text} (h : text.length < size) :
    snprintf size text = text :=
  List.take_of_length_le (by omega)

theorem cstr_of_notMem {text : Text} (h : 0 ∉ text) : cstr text = text :=
  List.takeWhile_eq_self_iff.mpr fun _ hb => decide_eq_true fun he => h (he ▸ hb)

/-! ### The first of a byte -/

theorem takeWhile_ne_append {p s : Text} {x : UInt8} (h : x ∉ p) :
    (p ++ x :: s).takeWhile (· ≠ x) = p ∧ ((p ++ x :: s).dropWhile (· ≠ x)).tail = s := by
  have hall : ∀ b ∈ p, decide (b ≠ x) = true := fun b hb =>
    decide_eq_true fun he => h (he ▸ hb)
  constructor
  · rw [List.takeWhile_append_of_pos hall, List.takeWhile_cons_of_neg (by simp), List.append_nil]
  · rw [List.dropWhile_append_of_pos hall, List.dropWhile_cons_of_neg (by simp), List.tail_cons]

/-- A text is parted at the first of a byte that it holds. -/
theorem takeWhile_ne_cons_tail {text : Text} {x : UInt8} (h : x ∈ text) :
    text = text.takeWhile (· ≠ x) ++ x :: (text.dropWhile (· ≠ x)).tail ∧
      x ∉ text.takeWhile (· ≠ x) := by
  obtain ⟨p, s, rfl, hp⟩ := List.eq_append_cons_of_mem h
  obtain ⟨htake, htail⟩ := takeWhile_ne_append (s := s) hp
  rw [htake, htail]
  exact ⟨rfl, hp⟩

/-! ### Lines -/

theorem fgetsFrom_append {size : ℕ} {line text : Text} (h : line.length + text.length + 2 ≤ size)
    (hn : 10 ∉ text) (file : Text) : fgetsFrom size line (text ++ 10 :: file) =
      (line ++ text ++ [10]) :: fgetsAll size file := by
  induction text generalizing line with
  | nil => simp [fgetsFrom, fgetsAll]
  | cons b text ih =>
    rw [List.length_cons] at h
    have hb : ¬(b = 10 ∨ line.length + 2 = size) := by
      rintro (rfl | hlen)
      · exact hn List.mem_cons_self
      · omega
    have hlen : (line ++ [b]).length + text.length + 2 ≤ size := by
      rw [List.length_append, List.length_singleton]
      omega
    rw [List.cons_append, fgetsFrom, if_neg hb, ih hlen (List.not_mem_of_not_mem_cons hn)]
    simp

/-- A text with a newline after each line is read as its lines. -/
theorem fgetsAll_unlines {size : ℕ} {lines : List Text}
    (h : ∀ l ∈ lines, l.length + 2 ≤ size ∧ 10 ∉ l) :
    fgetsAll size (lines.flatMap (· ++ [10])) = lines.map (· ++ [10]) := by
  induction lines with
  | nil => rfl
  | cons l lines ih =>
    obtain ⟨hlen, hn⟩ := h l List.mem_cons_self
    have hlen : ([] : Text).length + l.length + 2 ≤ size := by simpa using hlen
    rw [List.flatMap_cons, List.append_assoc, List.singleton_append, fgetsAll,
      fgetsFrom_append hlen hn, ih fun m hm => h m (List.mem_cons_of_mem _ hm)]
    rfl

/-- A text with a newline after each line is parted at its newlines. -/
theorem splitOn_unlines {lines : List Text} (h : ∀ l ∈ lines, 10 ∉ l) :
    (lines.flatMap (· ++ [10])).splitOn 10 = lines ++ [[]] := by
  induction lines with
  | nil => rfl
  | cons l lines ih =>
    rw [List.flatMap_cons, List.append_assoc, List.singleton_append,
      List.splitOn_append_cons_self_of_not_mem (h l List.mem_cons_self),
      ih fun m hm => h m (List.mem_cons_of_mem _ hm), List.cons_append]

/-! ### Tokens -/

variable {delim : UInt8} {token rest : Text}

/-- What `strtok_r` gives of a field, with what stands after it. -/
theorem strtok_append (hne : token ≠ []) (hd : delim ∉ token) (h : rest = [] ∨ rest.head? = delim) :
    strtok delim (token ++ rest) = some (token, rest.tail) := by
  have hall : ∀ b ∈ token, decide (b ≠ delim) = true := fun b hb =>
    decide_eq_true fun he => hd (he ▸ hb)
  obtain ⟨b, s, rfl⟩ := List.exists_cons_of_ne_nil hne
  have hb : b ≠ delim := of_decide_eq_true (hall b List.mem_cons_self)
  have hs : ∀ c ∈ s, decide (c ≠ delim) = true := fun c hc => hall c (List.mem_cons_of_mem _ hc)
  have hrest : rest.takeWhile (· ≠ delim) = [] ∧ rest.dropWhile (· ≠ delim) = rest := by
    cases rest with
    | nil => exact ⟨rfl, rfl⟩
    | cons c rest =>
      obtain rfl : c = delim := by simpa using h
      simp
  have hdrop : (b :: s ++ rest).dropWhile (· = delim) = b :: (s ++ rest) := by
    simp [hb]
  rw [strtok, hdrop]
  simp only [List.takeWhile_append_of_pos hs, List.dropWhile_append_of_pos hs, hrest.1, hrest.2,
    List.append_nil]

theorem strtok_cons (hne : token ≠ []) (hd : delim ∉ token) :
    strtok delim (token ++ delim :: rest) = some (token, rest) :=
  strtok_append hne hd (.inr rfl)

theorem strtokAll_eq {text : Text} (h : strtok delim text = some (token, rest)) :
    strtokAll delim text = token :: strtokAll delim rest := by
  rw [strtokAll]
  split
  · next hn => rw [h] at hn; cases hn
  · next t r hs =>
    obtain ⟨rfl, rfl⟩ := Prod.mk.inj (Option.some.inj (h.symm.trans hs))
    rfl

theorem strtokAll_nil : strtokAll delim [] = [] := by
  rw [strtokAll]
  rfl

theorem mem_intercalate {fields : List Text} {b : UInt8} (h : b ∈ [delim].intercalate fields) :
    b = delim ∨ ∃ t ∈ fields, b ∈ t := by
  induction fields with
  | nil => cases h
  | cons t fields ih =>
    cases fields with
    | nil => exact .inr ⟨t, List.mem_cons_self, by simpa using h⟩
    | cons s fields =>
      rw [List.intercalate_cons_cons, List.append_assoc, List.singleton_append] at h
      rcases List.mem_append.mp h with hb | hb
      · exact .inr ⟨t, List.mem_cons_self, hb⟩
      · rcases List.mem_cons.mp hb with rfl | hb
        · exact .inl rfl
        · exact (ih hb).imp_right fun ⟨u, hu, hbu⟩ => ⟨u, List.mem_cons_of_mem _ hu, hbu⟩

/-- What stands after the last field belongs to it. -/
theorem intercalate_append_last (fields : List Text) (last rest : Text) :
    [delim].intercalate (fields ++ [last]) ++ rest =
      [delim].intercalate (fields ++ [last ++ rest]) := by
  induction fields with
  | nil => simp
  | cons t fields ih =>
    have hne (text : Text) : fields ++ [text] ≠ [] := List.append_ne_nil_of_right_ne_nil _ (by simp)
    rw [List.cons_append, List.cons_append, List.intercalate_cons_of_ne_nil (hne _),
      List.intercalate_cons_of_ne_nil (hne _), List.append_assoc, ih]

/-- Fields that are not empty are the tokens. -/
theorem strtokAll_intercalate {fields : List Text} (h : ∀ t ∈ fields, t ≠ [] ∧ delim ∉ t) :
    strtokAll delim ([delim].intercalate fields) = fields := by
  induction fields with
  | nil => exact strtokAll_nil
  | cons t fields ih =>
    obtain ⟨hne, hd⟩ := h t List.mem_cons_self
    have ih := ih fun s hs => h s (List.mem_cons_of_mem _ hs)
    cases fields with
    | nil =>
      rw [List.intercalate_singleton]
      have := strtok_append hne hd (.inl rfl)
      rw [List.append_nil] at this
      rw [strtokAll_eq this]
      exact congrArg (t :: ·) strtokAll_nil
    | cons s fields =>
      rw [List.intercalate_cons_cons, List.append_assoc, List.singleton_append,
        strtokAll_eq (strtok_cons hne hd), ih]

end CString

end SingularityShell
