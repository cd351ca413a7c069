import SingularityShell.Lib.Ascii

/-!
# UTF-8

The texts that are well-formed UTF-8. A reader keeps the ranges of the bytes that are owed to the
character it is in.

## Main definitions

* `Utf8.validate` — well-formed UTF-8
* `Utf8.IsString` — the texts of C strings that are well-formed

## Main results

* `Utf8.isString_ofString` — a row of ASCII characters is a string
-/

namespace SingularityShell

namespace Utf8

open Ascii

/-- The ranges of the bytes that follow the first byte of a character. -/
def owed (b : UInt8) : Option (List (UInt8 × UInt8)) :=
  if b < 0x80 then some []
  else if 0xC2 ≤ b ∧ b ≤ 0xDF then some [(0x80, 0xBF)]
  else if b = 0xE0 then some [(0xA0, 0xBF), (0x80, 0xBF)]
  else if b = 0xED then some [(0x80, 0x9F), (0x80, 0xBF)]
  else if 0xE1 ≤ b ∧ b ≤ 0xEF then some [(0x80, 0xBF), (0x80, 0xBF)]
  else if b = 0xF0 then some [(0x90, 0xBF), (0x80, 0xBF), (0x80, 0xBF)]
  else if 0xF1 ≤ b ∧ b ≤ 0xF3 then some [(0x80, 0xBF), (0x80, 0xBF), (0x80, 0xBF)]
  else if b = 0xF4 then some [(0x80, 0x8F), (0x80, 0xBF), (0x80, 0xBF)]
  else none

/-- Reads a text of which the bytes of some ranges come first. -/
def validateFrom : List (UInt8 × UInt8) → Text → Bool
  | [], [] => true
  | _ :: _, [] => false
  | [], b :: text =>
    match owed b with
    | some ranges => validateFrom ranges text
    | none => false
  | (low, high) :: ranges, b :: text => low ≤ b && b ≤ high && validateFrom ranges text

/-- `g_utf8_validate` -/
def validate (text : Text) : Bool := validateFrom [] text

/-- A C string in UTF-8. -/
def IsString (text : Text) : Prop := 0 ∉ text ∧ validate text = true

instance (text : Text) : Decidable (IsString text) := inferInstanceAs (Decidable (_ ∧ _))

theorem validate_of_ascii {text : Text} (h : ∀ b ∈ text, b < 0x80) : validate text = true := by
  induction text with
  | nil => rfl
  | cons b text ih =>
    rw [validate, validateFrom, owed, if_pos (h b (by simp))]
    exact ih fun c hc => h c (by simp [hc])

theorem isString_nil : IsString [] := by decide

theorem isString_of_ascii {text : Text} (h : ∀ b ∈ text, b ≠ 0 ∧ b < 0x80) : IsString text :=
  ⟨fun h0 => (h 0 h0).1 rfl, validate_of_ascii fun b hb => (h b hb).2⟩

/-- Every byte that is owed is beyond ASCII. -/
theorem low_of_owed {b : UInt8} {ranges : List (UInt8 × UInt8)} (h : owed b = some ranges) :
    ∀ r ∈ ranges, 0x80 ≤ r.1 := by
  rw [owed] at h
  split_ifs at h
  all_goals
    obtain rfl := Option.some_inj.mp h
    simp

/-- A text in which ASCII characters are replaced by rows of ASCII characters. -/
theorem validateFrom_flatMap {f : UInt8 → Text} (hascii : ∀ b < 0x80, ∀ c ∈ f b, c < 0x80)
    (hother : ∀ b, ¬ b < 0x80 → f b = [b]) {ranges : List (UInt8 × UInt8)} {text : Text}
    (hranges : ∀ r ∈ ranges, 0x80 ≤ r.1) (h : validateFrom ranges text = true) :
    validateFrom ranges (text.flatMap f) = true := by
  induction text generalizing ranges with
  | nil => exact h
  | cons b text ih =>
    rw [List.flatMap_cons]
    cases ranges with
    | nil =>
      by_cases hb : b < 0x80
      · have hrest : validateFrom [] text = true := by
          rwa [validateFrom, owed, if_pos hb] at h
        have happ : ∀ row : Text, (∀ c ∈ row, c < 0x80) →
            validateFrom [] (row ++ text.flatMap f) = validateFrom [] (text.flatMap f) := by
          intro row hrow
          induction row with
          | nil => rfl
          | cons c row ihr =>
            rw [List.cons_append, validateFrom, owed, if_pos (hrow c List.mem_cons_self)]
            exact ihr fun d hd => hrow d (List.mem_cons_of_mem _ hd)
        rw [happ _ (hascii b hb)]
        exact ih hranges hrest
      · rw [hother b hb, List.singleton_append]
        rw [validateFrom] at h ⊢
        cases howed : owed b with
        | none => simp [howed] at h
        | some next =>
          simp only [howed] at h ⊢
          exact ih (low_of_owed howed) h
    | cons r ranges =>
      obtain ⟨low, high⟩ := r
      rw [validateFrom, Bool.and_eq_true, Bool.and_eq_true, decide_eq_true_eq] at h
      have hlow : (0x80 : UInt8) ≤ b := UInt8.le_trans (hranges _ List.mem_cons_self) h.1.1
      rw [hother b (UInt8.not_lt.mpr hlow), List.singleton_append, validateFrom, Bool.and_eq_true,
        Bool.and_eq_true, decide_eq_true_eq]
      exact ⟨h.1, ih (fun r hr => hranges r (List.mem_cons_of_mem _ hr)) h.2⟩

/-- A character of two bytes, and one that is written with too many. -/
example : validate [0xC3, 0xA9] = true ∧ validate [0xC1, 0xA9] = false := by decide

end Utf8

end SingularityShell
