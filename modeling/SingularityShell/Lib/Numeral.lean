import SingularityShell.Lib.Ascii
import SingularityShell.Lib.Machine

/-!
# Numbers that a C program reads

What `strtol` and its relatives make of a text: blanks, a sign, a prefix that names the base, and
the digits up to the first byte that is none.

## Main definitions

* `Numeral.scan` — what is read of a text, and what is left of it
* `Numeral.amount` — the number that a row of digits stands for
* `Numeral.strtoull`, `Numeral.atoi` — `g_ascii_strtoull` with base 0, and `atoi`
* `Numeral.cut` — what is left of a number that is cut to an `int`

## Main results

* `Numeral.scan_digits` — a row of digits is read whole
* `Numeral.strtoull_decimal`, `Numeral.atoi_decimal`, `Numeral.atoi_signed` — what was printed is
  read
-/

namespace SingularityShell

namespace Numeral

open Ascii Machine

/-- `isspace`, which has the vertical tab too. -/
def isBlank (b : UInt8) : Bool := isSpace b || b = 11

/-- What a digit or a letter counts. -/
def digit (b : UInt8) : ℕ :=
  if isDigit b then b.toNat - 48
  else if 97 ≤ b ∧ b ≤ 122 then b.toNat - 87
  else if 65 ≤ b ∧ b ≤ 90 then b.toNat - 55
  else 36

def isDigitOf (base : ℕ) (b : UInt8) : Bool := digit b < base

/-- The number that a row of digits stands for. -/
def amount (base : ℕ) (digits : Text) : ℕ := digits.foldl (fun n b => base * n + digit b) 0

/-- The sign, and what stands after it. -/
def sign : Text → Bool × Text
  | 45 :: text => (true, text)
  | 43 :: text => (false, text)
  | text => (false, text)

/-- The base that a number is in, and its digits: `0x` stands in front of a hexadecimal number when
one is expected or no base is given, `0` in front of an octal one when no base is given. -/
def radix (base : ℕ) : Text → ℕ × Text
  | 48 :: x :: d :: text =>
    if (base = 0 ∨ base = 16) ∧ (x = 120 ∨ x = 88) ∧ isDigitOf 16 d then (16, d :: text)
    else (if base = 0 then 8 else base, 48 :: x :: d :: text)
  | 48 :: text => (if base = 0 then 8 else base, 48 :: text)
  | text => (if base = 0 then 10 else base, text)

/-- A number that was read. -/
structure Scan where
  negative : Bool
  base : ℕ
  digits : Text
  /-- what `endptr` points to -/
  rest : Text

def scan (base : ℕ) (text : Text) : Scan :=
  let (negative, body) := sign (text.dropWhile isBlank)
  let (base, body) := radix base body
  let digits := body.takeWhile (isDigitOf base)
  ⟨negative, base, digits, if digits = [] then text else body.dropWhile (isDigitOf base)⟩

def Scan.amount (s : Scan) : ℕ := Numeral.amount s.base s.digits

/-- `g_ascii_strtoull` with base 0. -/
def strtoull (text : Text) : ℕ :=
  let s := scan 0 text
  if 2 ^ 64 ≤ s.amount then 2 ^ 64 - 1
  else if s.negative then (2 ^ 64 - s.amount) % 2 ^ 64
  else s.amount

/-- What is left of a number: a `long` holds what it can, and an `int` its low bits. -/
def cut (n : ℕ) : ℤ := wrap32 (min n (2 ^ 63 - 1))

/-- `atoi`: a `long` that is cut to an `int`. -/
def atoi (text : Text) : ℤ :=
  let s := scan 10 text
  wrap32 (if s.negative then max (-s.amount) (-2 ^ 63) else min s.amount (2 ^ 63 - 1))

/-! ### Rows of digits -/

theorem digit_of_isDigit {b : UInt8} (h : isDigit b = true) : digit b = b.toNat - 48 := if_pos h

theorem isDigitOf_of_isDigit {b : UInt8} (h : isDigit b = true) {base : ℕ} (hbase : 10 ≤ base) :
    isDigitOf base b = true := by
  have hle : b.toNat ≤ 57 := by
    simp only [isDigit, Bool.and_eq_true, decide_eq_true_eq, UInt8.le_iff_toNat_le] at h
    exact h.2
  rw [isDigitOf, digit_of_isDigit h, decide_eq_true_eq]
  omega

/-- A byte that a number can begin with is no blank and no sign. -/
theorem isDigitOf_spec (base : ℕ) (hbase : base ≤ 36) {b : UInt8} (h : isDigitOf base b = true) :
    isBlank b = false ∧ b ≠ 45 ∧ b ≠ 43 := by
  have hb : digit b < 36 := (of_decide_eq_true h).trans_le hbase
  refine ⟨?_, ?_, ?_⟩
  · by_contra hblank
    rw [Bool.not_eq_false, isBlank, isSpace, Bool.or_eq_true, decide_eq_true_eq,
      decide_eq_true_eq] at hblank
    rcases hblank with (rfl | rfl | rfl | rfl | rfl) | rfl <;> exact absurd hb (by decide)
  · rintro rfl
    exact absurd hb (by decide)
  · rintro rfl
    exact absurd hb (by decide)

theorem amount_append (base : ℕ) (p q : Text) :
    amount base (p ++ q) = q.foldl (fun n b => base * n + digit b) (amount base p) := by
  rw [amount, List.foldl_append]
  rfl

/-- In base 10 it is the number that the digits stand for. -/
theorem amount_ten {digits : Text} (h : ∀ b ∈ digits, isDigit b = true) :
    amount 10 digits = value digits := by
  induction digits using List.reverseRecOn with
  | nil => rfl
  | append_singleton digits b ih =>
    have hb := h b (List.mem_append_right _ List.mem_cons_self)
    rw [amount_append, ih fun c hc => h c (List.mem_append_left _ hc)]
    rw [List.foldl_cons, List.foldl_nil, digit_of_isDigit hb, value, value, List.foldl_append]
    rfl

theorem sign_of_head {text : Text} (h : ∀ b ∈ text.head?, b ≠ 45 ∧ b ≠ 43) :
    sign text = (false, text) := by
  cases text with
  | nil => rfl
  | cons b text =>
    obtain ⟨hminus, hplus⟩ := h b rfl
    rw [sign]
    · rintro text' h'
      exact hminus (List.cons.inj h').1
    · rintro text' h'
      exact hplus (List.cons.inj h').1

/-- The second byte of a row of digits is no `x`. -/
theorem radix_digits {base : ℕ} (hbase : base ≠ 0) (hle : base ≤ 33) {digits : Text}
    (h : ∀ b ∈ digits, isDigitOf base b = true) : radix base digits = (base, digits) := by
  rw [radix.eq_def]
  split
  · next x d text =>
    have hx : digit x < 33 := (of_decide_eq_true (h x (by simp))).trans_le hle
    rw [if_neg, if_neg hbase]
    rintro ⟨-, rfl | rfl, -⟩ <;> exact absurd hx (by decide)
  · rw [if_neg hbase]
  · rw [if_neg hbase]

/-- **A row of digits is read whole.** -/
theorem scan_digits {base : ℕ} (hbase : base ≠ 0) (hle : base ≤ 33) {digits : Text}
    (hne : digits ≠ []) (h : ∀ b ∈ digits, isDigitOf base b = true) :
    scan base digits = ⟨false, base, digits, []⟩ := by
  have hhead : ∀ b ∈ digits.head?, isBlank b = false ∧ b ≠ 45 ∧ b ≠ 43 := fun b hb =>
    isDigitOf_spec base (hle.trans (by omega)) (h b (List.mem_of_mem_head? hb))
  have hdrop : digits.dropWhile isBlank = digits := by
    cases digits with
    | nil => rfl
    | cons b digits => exact List.dropWhile_cons_of_neg (by simp [(hhead b rfl).1])
  have htake : digits.takeWhile (isDigitOf base) = digits := List.takeWhile_eq_self_iff.mpr h
  have hrest : digits.dropWhile (isDigitOf base) = [] := List.dropWhile_eq_nil_iff.mpr h
  simp only [scan, hdrop, sign_of_head fun b hb => (hhead b hb).2, radix_digits hbase hle h, htake,
    hrest, if_neg hne]

/-- The base is not given, and there is no zero in front. -/
theorem scan_zero_digits {digits : Text} (hne : digits ≠ [])
    (h : ∀ b ∈ digits, isDigit b = true) (hzero : digits.head? ≠ some 48) :
    scan 0 digits = ⟨false, 10, digits, []⟩ := by
  have hten : scan 10 digits = ⟨false, 10, digits, []⟩ :=
    scan_digits (by omega) (by omega) hne fun b hb => isDigitOf_of_isDigit (h b hb) le_rfl
  have hradix (body : Text) (hb : body.head? ≠ some 48) : radix 0 body = radix 10 body := by
    rw [radix.eq_def, radix.eq_def]
    split
    · exact absurd rfl hb
    · exact absurd rfl hb
    · rfl
  have hhead : ∀ b ∈ digits.head?, isBlank b = false ∧ b ≠ 45 ∧ b ≠ 43 := fun b hb =>
    isDigitOf_spec 10 (by omega)
      (isDigitOf_of_isDigit (h b (List.mem_of_mem_head? hb)) le_rfl)
  have hdrop : digits.dropWhile isBlank = digits := by
    cases digits with
    | nil => rfl
    | cons b digits => exact List.dropWhile_cons_of_neg (by simp [(hhead b rfl).1])
  rw [← hten]
  simp only [scan, hdrop, sign_of_head fun b hb => (hhead b hb).2, hradix digits hzero]

/-! ### Numbers that were printed -/

/-- The digits of a number do not begin with a zero unless the number is zero. -/
theorem head?_decimal {n : ℕ} (h : 0 < n) : (decimal n).head? ≠ some 48 := by
  intro hzero
  obtain ⟨digits, hcons⟩ := List.head?_eq_some_iff.mp hzero
  have hn : n = value digits := by
    rw [← value_decimal n, hcons, value_cons]
    simp
  have hdigits : ∀ b ∈ digits, isDigit b = true := fun b hb =>
    isDigit_of_mem_decimal (n := n) (hcons ▸ List.mem_cons_of_mem _ hb)
  have hlt := hn ▸ value_lt hdigits
  rcases Nat.eq_zero_or_pos digits.length with hnil | hpos
  · rw [hnil] at hlt
    omega
  · have hlen := (length_decimal_le hpos).mpr hlt
    rw [hcons, List.length_cons] at hlen
    omega

theorem strtoull_decimal {n : ℕ} (h : n < 2 ^ 64) : strtoull (decimal n) = n := by
  have hdigits : ∀ b ∈ decimal n, isDigit b = true := fun b hb => isDigit_of_mem_decimal hb
  rcases Nat.eq_zero_or_pos n with rfl | hpos
  · decide
  · simp only [strtoull, scan_zero_digits (decimal_ne_nil n) hdigits (head?_decimal hpos),
      Scan.amount, amount_ten hdigits, value_decimal]
    rw [if_neg (by omega)]
    rfl

theorem atoi_digits {digits : Text} (hne : digits ≠ []) (h : ∀ b ∈ digits, isDigit b = true) :
    atoi digits = cut (value digits) := by
  have hscan : scan 10 digits = ⟨false, 10, digits, []⟩ :=
    scan_digits (by omega) (by omega) hne fun b hb => isDigitOf_of_isDigit (h b hb) le_rfl
  simp only [atoi, hscan, Scan.amount, amount_ten h]
  rw [if_neg (by simp), cut]

theorem cut_of_lt {n : ℕ} (h : n < 2 ^ 31) : cut n = n := by
  rw [cut, min_eq_left (by omega), wrap32_eq (by omega) (by omega)]

theorem atoi_decimal {n : ℕ} (h : n < 2 ^ 31) : atoi (decimal n) = n := by
  rw [atoi_digits (decimal_ne_nil n) fun b hb => isDigit_of_mem_decimal hb, value_decimal,
    cut_of_lt h]

/-- A minus sign, and digits. -/
theorem scan_minus {base : ℕ} (hbase : base ≠ 0) (hle : base ≤ 33) {digits : Text}
    (hne : digits ≠ []) (h : ∀ b ∈ digits, isDigitOf base b = true) :
    scan base (45 :: digits) = ⟨true, base, digits, []⟩ := by
  have hdrop : (45 :: digits).dropWhile isBlank = 45 :: digits := rfl
  have hsign : sign (45 :: digits) = (true, digits) := rfl
  have htake : digits.takeWhile (isDigitOf base) = digits := List.takeWhile_eq_self_iff.mpr h
  have hrest : digits.dropWhile (isDigitOf base) = [] := List.dropWhile_eq_nil_iff.mpr h
  simp only [scan, hdrop, hsign, radix_digits hbase hle h, htake, hrest, if_neg hne]

/-- **An `int` that was printed is read again.** -/
theorem atoi_signed {n : ℤ} (h : -2 ^ 31 ≤ n) (h' : n < 2 ^ 31) : atoi (signed n) = n := by
  rw [signed]
  split_ifs with hneg
  · have hdigits : ∀ b ∈ decimal n.natAbs, isDigit b = true := fun b hb => isDigit_of_mem_decimal hb
    have hscan : scan 10 (45 :: decimal n.natAbs) = ⟨true, 10, decimal n.natAbs, []⟩ :=
      scan_minus (by omega) (by omega) (decimal_ne_nil _) fun b hb =>
        isDigitOf_of_isDigit (hdigits b hb) le_rfl
    simp only [atoi, hscan, Scan.amount, amount_ten hdigits, value_decimal]
    rw [if_pos trivial, max_eq_left (by omega), wrap32_eq (by omega) (by omega)]
    omega
  · rw [atoi_decimal (by omega)]
    omega

end Numeral

end SingularityShell
