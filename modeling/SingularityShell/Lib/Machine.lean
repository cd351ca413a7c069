import Mathlib.Algebra.Group.Nat.Defs
import Mathlib.Algebra.Ring.Int.Defs

/-!
# Machine integers

What is left of a number in a signed integer of fixed width.

## Main definitions

* `Machine.wrap16`, `Machine.wrap32`, `Machine.wrap64` — the value of an `int16`, of an `int` and of
  an `int64`
-/

namespace SingularityShell

namespace Machine

/-- An `int16`. -/
def wrap16 (x : ℤ) : ℤ := x.bmod (2 ^ 16)

/-- An `int`. -/
def wrap32 (x : ℤ) : ℤ := x.bmod (2 ^ 32)

/-- An `int64`. -/
def wrap64 (x : ℤ) : ℤ := x.bmod (2 ^ 64)

theorem wrap64_eq {x : ℤ} (h : -2 ^ 63 ≤ x) (h' : x < 2 ^ 63) : wrap64 x = x := by
  rw [wrap64, Int.bmod_def]
  omega

theorem wrap64_natCast {n : ℕ} (h : n < 2 ^ 63) : wrap64 (n : ℤ) = n :=
  wrap64_eq (by omega) (by omega)

theorem wrap64_bounds (x : ℤ) : -2 ^ 63 ≤ wrap64 x ∧ wrap64 x < 2 ^ 63 := by
  rw [wrap64, Int.bmod_def]
  omega

/-- A sum that is just too large becomes negative. -/
theorem wrap64_of_ge {x : ℤ} (h : 2 ^ 63 ≤ x) (h' : x < 2 ^ 64) : wrap64 x = x - 2 ^ 64 := by
  rw [wrap64, Int.bmod_def]
  omega

theorem wrap16_bounds (x : ℤ) : -2 ^ 15 ≤ wrap16 x ∧ wrap16 x < 2 ^ 15 := by
  rw [wrap16, Int.bmod_def]
  omega

theorem wrap32_eq {x : ℤ} (h : -2 ^ 31 ≤ x) (h' : x < 2 ^ 31) : wrap32 x = x := by
  rw [wrap32, Int.bmod_def]
  omega

theorem wrap32_zero : wrap32 0 = 0 := by decide

theorem wrap32_bounds (x : ℤ) : -2 ^ 31 ≤ wrap32 x ∧ wrap32 x < 2 ^ 31 := by
  rw [wrap32, Int.bmod_def]
  omega

theorem wrap32_wrap32 (x : ℤ) : wrap32 (wrap32 x) = wrap32 x :=
  wrap32_eq (wrap32_bounds x).1 (wrap32_bounds x).2

/-- A sum that is too large becomes negative, or small. -/
theorem wrap32_of_ge {x : ℤ} (h : 2 ^ 31 ≤ x) (h' : x < 2 ^ 32 + 2 ^ 31) :
    wrap32 x = x - 2 ^ 32 := by
  rw [wrap32, Int.bmod_def]
  omega

theorem wrap32_add_wrap32 (a b : ℤ) : wrap32 (wrap32 a + wrap32 b) = wrap32 (a + b) := by
  simp only [wrap32, Int.bmod_def]
  omega

/-- A loop that adds wraps around as its sum does. -/
theorem foldl_wrap32 {α : Type*} (f : α → ℤ) (l : List α) {a : ℤ} (ha : wrap32 a = a) :
    l.foldl (fun s x => wrap32 (s + f x)) a = wrap32 (a + (l.map f).sum) := by
  induction l generalizing a with
  | nil => rw [List.foldl_nil, List.map_nil, List.sum_nil, add_zero, ha]
  | cons x l ih =>
    rw [List.foldl_cons, ih (wrap32_wrap32 _), List.map_cons, List.sum_cons, ← add_assoc,
      ← wrap32_add_wrap32, wrap32_wrap32, wrap32_add_wrap32]

/-- A difference that is added again. -/
theorem wrap32_add_wrap32_sub (a x : ℤ) :
    wrap32 (a + wrap32 (wrap32 x - a)) = wrap32 x := by
  simp only [wrap32, Int.bmod_def]
  omega

end Machine

end SingularityShell
