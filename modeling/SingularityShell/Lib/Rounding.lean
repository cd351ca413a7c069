import Mathlib.Data.Rat.Floor
import Mathlib.Tactic.Linarith

/-!
# Clamping and rounding

What `CLAMP` and `round` do, over any linear order and over the rationals.

## Main definitions

* `Rounding.clamp` — the nearest value between two bounds
* `Rounding.roundAway` — the nearest integer, a half away from zero

## Main results

* `Rounding.clamp_eq`, `Rounding.le_clamp`, `Rounding.clamp_le` — clamping between bounds in order
* `Rounding.roundAway_intCast`, `Rounding.roundAway_mono` — rounding
-/

namespace SingularityShell

namespace Rounding

section
variable {α : Type*} [LinearOrder α] {x y low high : α}

/-- `CLAMP`, which compares with the upper bound first. -/
def clamp (x low high : α) : α := if high < x then high else if x < low then low else x

theorem clamp_eq (h : low ≤ high) : clamp x low high = max low (min x high) := by
  rw [clamp]
  by_cases hhigh : high < x
  · rw [if_pos hhigh, min_eq_right hhigh.le, max_eq_right h]
  · rw [if_neg hhigh, min_eq_left (not_lt.mp hhigh)]
    by_cases hlow : x < low
    · rw [if_pos hlow, max_eq_left hlow.le]
    · rw [if_neg hlow, max_eq_right (not_lt.mp hlow)]

theorem le_clamp (h : low ≤ high) : low ≤ clamp x low high := by
  rw [clamp_eq h]
  exact le_max_left _ _

theorem clamp_le (h : low ≤ high) : clamp x low high ≤ high := by
  rw [clamp_eq h]
  exact max_le h (min_le_right _ _)

end

/-- `round`: the nearest integer, and of two the one that is farther from zero. -/
def roundAway (q : ℚ) : ℤ := if q < 0 then -⌊-q + 1 / 2⌋ else ⌊q + 1 / 2⌋

theorem floor_intCast_add_half (n : ℤ) : ⌊(n : ℚ) + 1 / 2⌋ = n := by
  rw [Int.floor_eq_iff]
  constructor <;> linarith

@[simp] theorem roundAway_intCast (n : ℤ) : roundAway n = n := by
  rw [roundAway]
  split_ifs
  · rw [← Int.cast_neg, floor_intCast_add_half, neg_neg]
  · exact floor_intCast_add_half n

theorem roundAway_mono {p q : ℚ} (h : p ≤ q) : roundAway p ≤ roundAway q := by
  have hhalf {r : ℚ} (hr : 0 ≤ r) : 0 ≤ ⌊r + 1 / 2⌋ := Int.floor_nonneg.mpr (by linarith)
  rw [roundAway, roundAway]
  by_cases hq : q < 0
  · rw [if_pos hq, if_pos (lt_of_le_of_lt h hq)]
    exact neg_le_neg (Int.floor_le_floor (by linarith))
  · rw [if_neg hq]
    by_cases hp : p < 0
    · rw [if_pos hp]
      have hneg := hhalf (r := -p) (by linarith)
      have hpos := hhalf (not_lt.mp hq)
      omega
    · rw [if_neg hp]
      exact Int.floor_le_floor (by linarith)

end Rounding

end SingularityShell
