import Mathlib.Data.Int.Log
import Mathlib.Data.Rat.Floor
import Mathlib.Tactic.NormNum
import SingularityShell.Lib.Rounding

/-!
# Double precision numbers

The values of a `double` and the rounding of its operations, in rational numbers.

## Main definitions

* `Binary64.Double` — the values
* `Binary64.fl` — the double that is next to a rational number
* `Binary64.ofBits64`, `Binary64.ofBits32` — a double and a float from their bits

## Main results

* `Binary64.fl_intCast` — integers of 53 bits are doubles
-/

namespace SingularityShell

namespace Binary64

/-- The values of a `double`. The two zeros are one number. -/
inductive Double where
  | nan
  | inf (negative : Bool)
  | num (x : ℚ)
  deriving DecidableEq

def Double.isNan : Double → Bool
  | .nan => true
  | _ => false

/-- `a < x` -/
def Double.lt (a : Double) (x : ℚ) : Bool :=
  match a with
  | .nan => false
  | .inf negative => negative
  | .num y => y < x

/-- `clamp(low, high)`, which leaves a NaN as it is. -/
def Double.clamp (low high : ℚ) : Double → Double
  | .nan => .nan
  | .inf negative => .num (if negative then low else high)
  | .num x => .num (if x > high then high else if x < low then low else x)

/-- A cast to an integer of `width` bits. The language leaves open what becomes of a number that
does not fit. -/
def Double.toInt (undefined : ℕ → Double → ℤ) (width : ℕ) (a : Double) : ℤ :=
  match a with
  | .num x =>
    let n := x.num.tdiv x.den
    if -2 ^ (width - 1) ≤ n ∧ n < 2 ^ (width - 1) then n else undefined width a
  | _ => undefined width a

/-- The integer next to a number, the even one when two are. -/
def roundEven (x : ℚ) : ℤ :=
  if x - ⌊x⌋ < 1 / 2 then ⌊x⌋
  else if 1 / 2 < x - ⌊x⌋ then ⌊x⌋ + 1
  else if ⌊x⌋ % 2 = 0 then ⌊x⌋ else ⌊x⌋ + 1

/-- The exponent of the last of the 53 bits of a number. -/
def lastBit (x : ℚ) : ℤ := max (Int.log 2 |x| - 52) (-1074)

/-- The result of an operation whose exact result is `x`, below the overflow threshold. -/
def fl (x : ℚ) : ℚ := roundEven (x / 2 ^ lastBit x) * 2 ^ lastBit x

theorem roundEven_intCast (n : ℤ) : roundEven n = n := by
  rw [roundEven, Int.floor_intCast, sub_self, if_pos (by norm_num)]

/-- The last bit of a number that is below a power of two. -/
theorem lastBit_le {x : ℚ} {k : ℤ} (hk : 0 ≤ k) (h : |x| < 2 ^ k) : lastBit x ≤ k - 53 ∨
    lastBit x ≤ -52 := by
  rcases eq_or_ne x 0 with rfl | hx
  · right
    rw [lastBit, abs_zero, Int.log_zero_right]
    decide
  · left
    have hlog : Int.log 2 |x| < k := by
      rw [← Int.lt_zpow_iff_log_lt (by norm_num) (abs_pos.mpr hx)]
      exact_mod_cast h
    rw [lastBit]
    omega

theorem lastBit_nonpos {n : ℤ} (h : |n| < 2 ^ 53) : lastBit n ≤ 0 := by
  rcases lastBit_le (x := n) (k := 53) (by decide) (by exact_mod_cast h) with hle | hle
  · omega
  · omega

/-- Integers of 53 bits are doubles. -/
theorem fl_intCast {n : ℤ} (h : |n| < 2 ^ 53) : fl n = n := by
  obtain ⟨k, hk⟩ := Int.exists_eq_neg_ofNat (lastBit_nonpos h)
  have hshift : (n : ℚ) / 2 ^ lastBit n = (n * 2 ^ k : ℤ) := by
    rw [hk, zpow_neg, zpow_natCast, div_inv_eq_mul]
    push_cast
    rfl
  rw [fl, hshift, roundEven_intCast, ← hshift]
  exact div_mul_cancel₀ _ (zpow_ne_zero _ two_ne_zero)

theorem abs_roundEven_sub_le (x : ℚ) : |(roundEven x : ℚ) - x| ≤ 1 / 2 := by
  have hlow := Int.floor_le x
  have hhigh := Int.lt_floor_add_one x
  rw [roundEven, abs_le]
  split_ifs with hbelow habove heven
  · constructor <;> linarith
  · push_cast
    constructor <;> linarith
  · constructor <;> linarith
  · push_cast
    constructor <;> linarith

/-- The error is at most half of the last bit. -/
theorem abs_fl_sub_le (x : ℚ) : |fl x - x| ≤ 2 ^ lastBit x / 2 := by
  have hpos : (0 : ℚ) < 2 ^ lastBit x := zpow_pos two_pos _
  have hscale : fl x - x = (roundEven (x / 2 ^ lastBit x) - x / 2 ^ lastBit x) * 2 ^ lastBit x := by
    rw [fl, sub_mul, div_mul_cancel₀ _ hpos.ne']
  rw [hscale, abs_mul, abs_of_pos hpos]
  have herror := mul_le_mul_of_nonneg_right (abs_roundEven_sub_le (x / 2 ^ lastBit x)) hpos.le
  linarith

/-- The error is less than one for numbers of 53 bits. -/
theorem fl_lt_add_one {x : ℚ} (h : |x| < 2 ^ (53 : ℤ)) : fl x < x + 1 := by
  have hbit : lastBit x ≤ 0 := by
    rcases lastBit_le (by decide) h with hle | hle
    · omega
    · omega
  have hle : (2 : ℚ) ^ lastBit x ≤ 1 := zpow_le_one_of_nonpos₀ one_le_two hbit
  have herror := (abs_le.mp (abs_fl_sub_le x)).2
  linarith

/-- A cast of a number that fits drops its fraction. -/
theorem Double.toInt_of_nonneg {undefined : ℕ → Double → ℤ} {width : ℕ} {x : ℚ} (h : 0 ≤ x)
    (h' : x < 2 ^ (width - 1)) : (Double.num x).toInt undefined width = ⌊x⌋ := by
  have hfloor : x.num.tdiv x.den = ⌊x⌋ := by
    rw [Int.tdiv_eq_ediv_of_nonneg (Rat.num_nonneg.mpr h), Rat.floor_def']
  have hlt : ⌊x⌋ < 2 ^ (width - 1) := Int.floor_lt.mpr (by exact_mod_cast h')
  have hnonneg := Int.floor_nonneg.mpr h
  have hpos : (0 : ℤ) < 2 ^ (width - 1) := by positivity
  rw [Double.toInt, hfloor]
  exact if_pos ⟨by omega, hlt⟩

theorem fl_nonneg {x : ℚ} (h : 0 ≤ x) : 0 ≤ fl x := by
  have hscaled : 0 ≤ x / 2 ^ lastBit x := div_nonneg h (zpow_nonneg (by norm_num) _)
  have hround : 0 ≤ roundEven (x / 2 ^ lastBit x) := by
    have hfloor := Int.floor_nonneg.mpr hscaled
    rw [roundEven]
    split_ifs <;> omega
  exact mul_nonneg (by exact_mod_cast hround) (zpow_nonneg (by norm_num) _)

/-- A number that is below one by a last bit stays below one. -/
theorem fl_lt_one {x : ℚ} (h : 0 ≤ x) (hx : x ≤ 1 - 1 / 2 ^ 53) : fl x < 1 := by
  rcases eq_or_ne x 0 with rfl | hne
  · have hzero := fl_intCast (n := 0) (by decide)
    rw [Int.cast_zero] at hzero
    rw [hzero]
    exact one_pos
  · have hlog : Int.log 2 |x| < 0 := by
      rw [← Int.lt_zpow_iff_log_lt (by norm_num) (abs_pos.mpr hne), abs_of_nonneg h, zpow_zero]
      exact hx.trans_lt (by norm_num)
    have hlast : lastBit x ≤ -53 := by
      rw [lastBit]
      omega
    have herror : (2 : ℚ) ^ lastBit x ≤ 2 ^ (-53 : ℤ) := zpow_le_zpow_right₀ (by norm_num) hlast
    have hround := (abs_le.mp (abs_fl_sub_le x)).2
    norm_num at herror hx
    linarith

/-- A product with a positive number, below the overflow threshold. -/
def Double.scale (a : Double) (c : ℚ) : Double :=
  match a with
  | .num x => .num (fl (x * c))
  | a => a

/-- `round`: the integer next to a number, the one that is farther from zero when two are. -/
def Double.round (a : Double) : Double :=
  match a with
  | .num x => .num (Rounding.roundAway x)
  | a => a

/-- The value of a pattern of bits with an exponent of `width` bits and a fraction of `prec`
bits. -/
def ofBits (width prec bits : ℕ) : Double :=
  let fraction := bits % 2 ^ prec
  let exponent := bits / 2 ^ prec % 2 ^ width
  let negative := bits / 2 ^ (prec + width) % 2 = 1
  let sign : ℚ := if negative then -1 else 1
  let bias : ℤ := 2 ^ (width - 1) - 1
  if exponent = 2 ^ width - 1 then if fraction = 0 then .inf negative else .nan
  else if exponent = 0 then .num (sign * fraction * 2 ^ (1 - bias - prec))
  else .num (sign * (2 ^ prec + fraction) * 2 ^ (exponent - bias - prec))

/-- A `float` from its bits. -/
def ofBits32 (bits : ℕ) : Double := ofBits 8 23 bits

/-- A `double` from its bits. -/
def ofBits64 (bits : ℕ) : Double := ofBits 11 52 bits

example : ofBits64 0x4045000000000000 = .num 42 := by decide +kernel

end Binary64

end SingularityShell
