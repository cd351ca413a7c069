import Mathlib.Algebra.BigOperators.Group.List.Basic
import Mathlib.Algebra.GroupWithZero.Nat
import Mathlib.Data.List.Count
import Mathlib.Data.List.Rotate
import Mathlib.Data.Option.Basic

/-!
# Weighted choices

A choice among elements that have weights: each element has as many units as it weighs, and a number
below the total weight chooses the element that has the unit of this number.

## Main definitions

* `Weighted.units` — the units in order

## Main results

* `Weighted.getElem?_units_cons` — a walk that subtracts one weight after the other finds the unit
* `Weighted.count_units` — how many units an element has
* `Weighted.count_window` — over as many consecutive numbers as there are units, each unit is chosen
  once
-/

namespace SingularityShell

namespace Weighted

variable {α : Type*}

/-- The units in order. -/
def units (l : List (α × ℕ)) : List α := l.flatMap fun c => List.replicate c.2 c.1

theorem units_cons (c : α × ℕ) (l : List (α × ℕ)) :
    units (c :: l) = List.replicate c.2 c.1 ++ units l := List.flatMap_cons

/-- How many units there are. -/
theorem length_units (l : List (α × ℕ)) : (units l).length = (l.map Prod.snd).sum := by
  induction l with
  | nil => rfl
  | cons c l ih =>
    rw [units_cons, List.length_append, List.length_replicate, ih, List.map_cons, List.sum_cons]

/-- A walk along the weights. -/
theorem getElem?_units_cons (c : α × ℕ) (l : List (α × ℕ)) (n : ℕ) :
    (units (c :: l))[n]? = if n < c.2 then some c.1 else (units l)[n - c.2]? := by
  rw [units_cons]
  split_ifs with h
  · rw [List.getElem?_append_left (by rwa [List.length_replicate])]
    exact List.getElem?_replicate_of_lt h
  · rw [List.getElem?_append_right (by rw [List.length_replicate]; omega), List.length_replicate]

section
variable [BEq α] [LawfulBEq α]

/-- The weights of all occurrences of an element add up. -/
theorem count_units (l : List (α × ℕ)) (a : α) :
    (units l).count a = ((l.filter (·.1 == a)).map Prod.snd).sum := by
  induction l with
  | nil => rfl
  | cons c l ih =>
    rw [units_cons, List.count_append, ih, List.count_replicate]
    by_cases h : (c.1 == a) = true
    · rw [if_pos h, List.filter_cons, if_pos h, List.map_cons, List.sum_cons]
    · rw [if_neg h, List.filter_cons, if_neg h, Nat.zero_add]

omit [BEq α] [LawfulBEq α] in
/-- Numbers that run once around the units read them in a rotated order. -/
theorem map_window (l : List α) (start : ℕ) :
    ((List.range l.length).map fun i => l[(start + i) % l.length]?) =
      (l.rotate start).map some := by
  refine List.ext_getElem (by simp) fun i h h' => ?_
  have hi : i < l.length := by simpa using h
  have hmod : (i + start) % l.length < l.length := Nat.mod_lt _ (by omega)
  rw [List.getElem_map, List.getElem_map, List.getElem_range, List.getElem_rotate,
    Nat.add_comm start i, List.getElem?_eq_getElem hmod]

/-- **Each unit is chosen once.** -/
theorem count_window (l : List α) (start : ℕ) (a : α) :
    ((List.range l.length).map fun i => l[(start + i) % l.length]?).count (some a) = l.count a := by
  rw [map_window, List.count_map_of_injective _ _ (Option.some_injective α),
    (List.rotate_perm l start).count_eq]

/-- A row in which what is behind a place is replaced by one element, without changing how often
this element is in the row. -/
theorem forall_mem_drop_of_count {l : List α} {n : ℕ} {a : α}
    (h : (l.take n ++ List.replicate (l.length - n) a).count a = l.count a) :
    ∀ b ∈ l.drop n, a = b := by
  have hsplit : l.count a = (l.take n).count a + (l.drop n).count a := by
    rw [← List.count_append, List.take_append_drop]
  rw [List.count_append, List.count_replicate_self, hsplit, ← List.length_drop] at h
  exact List.count_eq_length.mp (Nat.add_left_cancel h).symm

end

end Weighted

end SingularityShell
