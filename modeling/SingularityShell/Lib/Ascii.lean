import Mathlib.Data.List.Basic
import Mathlib.Data.List.DropRight
import Mathlib.Tactic.Ring
import Mathlib.Data.Int.Notation
import Mathlib.Data.Nat.Notation

/-!
# Text as bytes

Program text as the bytes it is made of, and numbers in decimal notation.

## Main definitions

* `Ascii.Text`, `Ascii.ofString` — bytes, and the bytes of a literal
* `Ascii.decimal`, `Ascii.signed` — what `%lu` and `%ld` print
* `Ascii.value` — the number a row of digits stands for

## Main results

* `Ascii.value_decimal`, `Ascii.padded_spec` — reading what was printed
* `Ascii.value_le_of_le` — the order of texts is that of the numbers
* `Ascii.signed_append_inj` — what is printed before a byte that is no digit can be told apart
-/

namespace SingularityShell

namespace Ascii

/-- A string as the program has it. -/
abbrev Text := List UInt8

instance (t : Text) (l : List Text) : Decidable (t ∈ l) := List.instDecidableMemOfLawfulBEq t l

/-- The bytes of a literal, all of whose characters are ASCII. -/
def ofString (s : String) : Text := s.toList.map fun c => c.toNat.toUInt8

/-- `0` to `9`. -/
def isDigit (b : UInt8) : Bool := 48 ≤ b && b ≤ 57

/-- What `%lu` prints. -/
def decimal (n : ℕ) : Text := (Nat.toDigits 10 n).map fun c => c.toNat.toUInt8

/-- What `%ld` prints. -/
def signed (n : ℤ) : Text := if n < 0 then 45 :: decimal n.natAbs else decimal n.natAbs

/-- What `%0*lu` prints: zeros in front, up to a width. -/
def padded (width n : ℕ) : Text := List.replicate (width - (decimal n).length) 48 ++ decimal n

/-- The number a row of digits stands for. -/
def value (digits : Text) : ℕ := digits.foldl (fun n b => 10 * n + (b.toNat - 48)) 0

theorem ofString_newline (s : String) : ofString (s ++ "\n") = ofString s ++ [10] := by
  simp [ofString]

/-! ### Digits -/

/-- The bytes of the digits are the characters of the digits. -/
theorem toNat_of_isDigit {c : Char} (h : c.isDigit = true) :
    c.toNat.toUInt8.toNat = c.toNat ∧ isDigit c.toNat.toUInt8 = true := by
  have hlow : 48 ≤ c.toNat := by
    simp only [Char.isDigit, Bool.and_eq_true, decide_eq_true_eq] at h
    exact h.1
  have hhigh : c.toNat ≤ 57 := by
    simp only [Char.isDigit, Bool.and_eq_true, decide_eq_true_eq] at h
    exact h.2
  have hn : c.toNat.toUInt8.toNat = c.toNat := by
    rw [Nat.toUInt8_eq, UInt8.toNat_ofNat']
    omega
  refine ⟨hn, ?_⟩
  simp only [isDigit, Bool.and_eq_true, decide_eq_true_eq, UInt8.le_iff_toNat_le, hn]
  exact ⟨hlow, hhigh⟩

theorem isDigit_of_mem_decimal {n : ℕ} {b : UInt8} (h : b ∈ decimal n) : isDigit b = true := by
  obtain ⟨c, hc, rfl⟩ := List.mem_map.mp h
  exact (toNat_of_isDigit (Nat.isDigit_of_mem_toDigits (by omega) (by omega) hc)).2

theorem ascii_of_isDigit {b : UInt8} (h : isDigit b = true) : b ≠ 0 ∧ b < 0x80 := by
  simp only [isDigit, Bool.and_eq_true, decide_eq_true_eq, UInt8.le_iff_toNat_le] at h
  have hlow : 48 ≤ b.toNat := h.1
  have hhigh : b.toNat ≤ 57 := h.2
  refine ⟨fun h0 => ?_, UInt8.lt_iff_toNat_lt.mpr ?_⟩
  · rw [h0] at hlow
    exact absurd hlow (by decide)
  · exact lt_of_le_of_lt hhigh (by decide)

theorem decimal_ne_nil (n : ℕ) : decimal n ≠ [] := by
  simp [decimal]

/-- **Reading what was printed.** -/
theorem value_decimal (n : ℕ) : value (decimal n) = n := by
  have hfold : ∀ (cs : List Char) (a : ℕ), (∀ c ∈ cs, c.isDigit = true) →
      (cs.map fun c => c.toNat.toUInt8).foldl (fun n b => 10 * n + (b.toNat - 48)) a =
        Nat.ofDigitChars 10 cs a := by
    intro cs
    induction cs with
    | nil => exact fun a _ => rfl
    | cons c cs ih =>
      intro a h
      rw [List.map_cons, List.foldl_cons, ih _ fun d hd => h d (List.mem_cons_of_mem _ hd),
        (toNat_of_isDigit (h c List.mem_cons_self)).1]
      rfl
  have hdigits : ∀ c ∈ Nat.toDigits 10 n, c.isDigit = true := fun c hc =>
    Nat.isDigit_of_mem_toDigits (by omega) (by omega) hc
  exact (hfold _ 0 hdigits).trans Nat.ofDigitChars_ten_toDigits

theorem value_append (p q : Text) : value (p ++ q) = value p * 10 ^ q.length + value q := by
  have hfold : ∀ (q : Text) (a : ℕ), q.foldl (fun n b => 10 * n + (b.toNat - 48)) a =
      a * 10 ^ q.length + value q := by
    intro q
    induction q with
    | nil => exact fun a => by simp [value]
    | cons b q ih =>
      intro a
      unfold value
      rw [List.foldl_cons, List.foldl_cons, ih, ih (10 * 0 + _), List.length_cons, pow_succ]
      ring
  unfold value
  rw [List.foldl_append, hfold]
  rfl

theorem value_cons (b : UInt8) (p : Text) :
    value (b :: p) = (b.toNat - 48) * 10 ^ p.length + value p := by
  have := value_append [b] p
  simpa [value] using this

theorem value_lt {p : Text} (h : ∀ b ∈ p, isDigit b = true) : value p < 10 ^ p.length := by
  induction p with
  | nil => simp [value]
  | cons b p ih =>
    have hb := h b List.mem_cons_self
    have hp := ih fun c hc => h c (List.mem_cons_of_mem _ hc)
    have hle : b.toNat - 48 ≤ 9 := by
      simp only [isDigit, Bool.and_eq_true, decide_eq_true_eq, UInt8.le_iff_toNat_le] at hb
      have : b.toNat ≤ 57 := hb.2
      omega
    rw [value_cons, List.length_cons, pow_succ]
    have := Nat.mul_le_mul_right (10 ^ p.length) hle
    omega

/-- Rows of digits of one length are in the order of the numbers. -/
theorem value_le_of_le {p q : Text} (hlen : p.length = q.length) (hp : ∀ b ∈ p, isDigit b = true)
    (hle : p ≤ q) : value p ≤ value q := by
  induction p generalizing q with
  | nil => simp [value]
  | cons b p ih =>
    cases q with
    | nil => simp at hlen
    | cons c q =>
      have htail : p.length = q.length := by simpa using hlen
      have hdigits : ∀ x ∈ p, isDigit x = true := fun x hx => hp x (List.mem_cons_of_mem _ hx)
      rw [value_cons, value_cons, htail]
      rcases List.cons_le_cons_iff.mp hle with hlt | ⟨rfl, htail_le⟩
      · have hb := hp b List.mem_cons_self
        simp only [isDigit, Bool.and_eq_true, decide_eq_true_eq, UInt8.le_iff_toNat_le] at hb
        have hb : 48 ≤ b.toNat := hb.1
        have hlt : b.toNat < c.toNat := hlt
        have hv := value_lt hdigits
        have := Nat.mul_le_mul_right (10 ^ q.length) (show b.toNat - 48 + 1 ≤ c.toNat - 48 by omega)
        rw [htail] at hv
        rw [Nat.add_mul] at this
        omega
      · exact Nat.add_le_add_left (ih htail hdigits htail_le) _

theorem length_decimal_le {n k : ℕ} (hk : 0 < k) : (decimal n).length ≤ k ↔ n < 10 ^ k := by
  rw [decimal, List.length_map]
  exact Nat.length_toDigits_le_iff (by omega) hk

/-- A number that fits has the width it is printed with. -/
theorem padded_spec (width : ℕ) {n : ℕ} (hw : 0 < width) (h : n < 10 ^ width) :
    (padded width n).length = width ∧ (∀ b ∈ padded width n, isDigit b = true) ∧
      value (padded width n) = n := by
  have hlen := (length_decimal_le hw).mpr h
  have hzero : ∀ k, value (List.replicate k 48) = 0 := fun k => by
    induction k with
    | zero => rfl
    | succ k ih => rw [List.replicate_succ, value_cons, ih]; simp
  refine ⟨?_, fun b hb => ?_, ?_⟩
  · rw [padded, List.length_append, List.length_replicate]
    omega
  · rcases List.mem_append.mp hb with hb | hb
    · rw [List.eq_of_mem_replicate hb]
      rfl
    · exact isDigit_of_mem_decimal hb
  · rw [padded, value_append, hzero, value_decimal]
    omega

theorem decimal_injective : Function.Injective decimal := fun a b h => by
  rw [← value_decimal a, h, value_decimal]

theorem signed_injective : Function.Injective signed := by
  have hhead : ∀ a b : ℕ, 45 :: decimal a ≠ decimal b := fun a b h => by
    have : isDigit 45 = true := isDigit_of_mem_decimal (h ▸ List.mem_cons_self)
    exact absurd this (by decide)
  intro a b h
  unfold signed at h
  split_ifs at h with ha hb hb
  · have := decimal_injective (List.cons_injective h)
    omega
  · exact absurd h (hhead _ _)
  · exact absurd h.symm (hhead _ _)
  · have := decimal_injective h
    omega

theorem isDigit_of_mem_signed {n : ℤ} {b : UInt8} (h : b ∈ signed n) :
    b = 45 ∨ isDigit b = true := by
  unfold signed at h
  split_ifs at h
  · exact (List.mem_cons.mp h).imp_right isDigit_of_mem_decimal
  · exact Or.inr (isDigit_of_mem_decimal h)

/-- Two texts that end at the first separator are the same when the texts after it are. -/
theorem separate_inj {α : Type*} {p q s t : List α} {x : α} (hp : x ∉ p) (hq : x ∉ q)
    (h : p ++ x :: s = q ++ x :: t) : p = q ∧ s = t := by
  induction p generalizing q with
  | nil =>
    cases q with
    | nil => exact ⟨rfl, List.cons_injective h⟩
    | cons c q => exact absurd (List.cons.inj h).1 fun he => hq (he ▸ List.mem_cons_self)
  | cons b p ih =>
    cases q with
    | nil => exact absurd (List.cons.inj h).1 fun he => hp (he ▸ List.mem_cons_self)
    | cons c q =>
      obtain ⟨hbc, htail⟩ := List.cons.inj h
      obtain ⟨hpq, hst⟩ :=
        ih (List.not_mem_of_not_mem_cons hp) (List.not_mem_of_not_mem_cons hq) htail
      exact ⟨by rw [hbc, hpq], hst⟩

/-- Numbers that are followed by a byte that is neither a digit nor a sign can be told apart. -/
theorem signed_append_inj {a b : ℤ} {x : UInt8} {s t : Text} (hx : x ≠ 45) (hd : isDigit x = false)
    (h : signed a ++ x :: s = signed b ++ x :: t) : a = b ∧ s = t := by
  have hnot : ∀ n : ℤ, x ∉ signed n := fun n hn =>
    (isDigit_of_mem_signed hn).elim hx fun he => by simp [he] at hd
  obtain ⟨hab, hst⟩ := separate_inj (hnot a) (hnot b) h
  exact ⟨signed_injective hab, hst⟩

/-! ### White space -/

/-- `g_ascii_isspace` -/
def isSpace (b : UInt8) : Bool := b = 32 ∨ b = 9 ∨ b = 10 ∨ b = 12 ∨ b = 13

/-- `string.strip` -/
def strip (text : Text) : Text := (text.dropWhile isSpace).rdropWhile isSpace

/-- Blanks at the ends make no difference. -/
theorem strip_append {before text after : Text} (hbefore : ∀ b ∈ before, isSpace b = true)
    (hafter : ∀ b ∈ after, isSpace b = true) : strip (before ++ text ++ after) = strip text := by
  have hend : ∀ head : Text, (head ++ after).rdropWhile isSpace = head.rdropWhile isSpace := by
    intro head
    rw [List.rdropWhile, List.reverse_append,
      List.dropWhile_append_of_pos fun b hb => hafter b (List.mem_reverse.mp hb), List.rdropWhile]
  rw [strip, List.append_assoc, List.dropWhile_append_of_pos hbefore, strip]
  by_cases htext : ∀ b ∈ text, isSpace b = true
  · rw [List.dropWhile_append_of_pos htext, List.dropWhile_eq_nil_iff.mpr hafter,
      List.dropWhile_eq_nil_iff.mpr htext]
  · have hne : text.dropWhile isSpace ≠ [] := fun hnil =>
      htext (List.dropWhile_eq_nil_iff.mp hnil)
    have hsplit : (text ++ after).dropWhile isSpace = text.dropWhile isSpace ++ after := by
      rw [List.dropWhile_append]
      cases hdrop : text.dropWhile isSpace with
      | nil => exact absurd hdrop hne
      | cons b rest => rfl
    rw [hsplit, hend]

theorem isSpace_of_isDigit {b : UInt8} (h : isDigit b = true) : isSpace b = false := by
  simp only [isDigit, Bool.and_eq_true, decide_eq_true_eq, UInt8.le_iff_toNat_le] at h
  have hlow : 48 ≤ b.toNat := h.1
  have hne {c : UInt8} (hc : c.toNat < 48) : b ≠ c := fun he => by
    rw [he] at hlow
    omega
  refine decide_eq_false ?_
  rintro (h | h | h | h | h)
  · exact hne (by decide) h
  · exact hne (by decide) h
  · exact hne (by decide) h
  · exact hne (by decide) h
  · exact hne (by decide) h

theorem strip_eq_self {text : Text} (hne : text ≠ []) (hhead : isSpace (text.head hne) = false)
    (hlast : isSpace (text.getLast hne) = false) : strip text = text := by
  obtain ⟨b, tail, rfl⟩ := List.exists_cons_of_ne_nil hne
  rw [strip, List.dropWhile_cons_of_neg (by simpa using hhead)]
  exact List.rdropWhile_eq_self_iff.mpr fun _ => by simpa using hlast

/-- Hours and minutes in two digits each. -/
theorem padded_two {n : ℕ} (h : n < 100) : ∃ a b, padded 2 n = [a, b] ∧ isDigit a = true ∧
    isDigit b = true ∧ value [a, b] = n := by
  obtain ⟨hlen, hdigits, hvalue⟩ := padded_spec 2 (by omega) (show n < 10 ^ 2 by omega)
  obtain ⟨a, b, hab⟩ := List.length_eq_two.mp hlen
  rw [hab] at hdigits hvalue
  exact ⟨a, b, hab, hdigits a List.mem_cons_self, hdigits b (by simp), hvalue⟩

theorem colon_notMem {text : Text} (h : ∀ b ∈ text, isDigit b = true) : 58 ∉ text := fun hmem =>
  absurd (h 58 hmem) (by decide)

/-- A time of the day has no white space around it and two parts. -/
theorem clock_spec {h m : ℕ} (hh : h < 100) (hm : m < 100) :
    strip (padded 2 h ++ 58 :: padded 2 m) = padded 2 h ++ 58 :: padded 2 m ∧
      (padded 2 h ++ 58 :: padded 2 m).splitOn 58 = [padded 2 h, padded 2 m] := by
  obtain ⟨a, b, hab, ha, hb, -⟩ := padded_two hh
  obtain ⟨c, d, hcd, hc, hd, -⟩ := padded_two hm
  rw [hab, hcd]
  refine ⟨strip_eq_self (List.cons_ne_nil _ _) (isSpace_of_isDigit ha) (isSpace_of_isDigit hd), ?_⟩
  rw [List.splitOn_append_cons_self_of_not_mem (colon_notMem (by simp [ha, hb])),
    List.splitOn_eq_singleton (colon_notMem (by simp [hc, hd]))]

end Ascii

end SingularityShell
