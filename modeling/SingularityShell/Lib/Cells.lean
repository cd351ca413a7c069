import Mathlib.Data.List.Flatten
import Mathlib.Data.List.Perm.Basic
import Mathlib.Logic.Function.Basic

/-!
# Cells

A list of cells, each with a list of contents that is kept elsewhere. A change of one cell changes
what all of them hold by what it adds to that cell and takes from it.

## Main results

* `Cells.flatMap_update_perm` — the contents of all cells after one of them changed
* `Cells.flatMap_put_perm`, `Cells.flatMap_take_perm` — an element is put into a cell or taken from
  one
-/

namespace SingularityShell

namespace Cells

variable {ι α : Type*} [DecidableEq ι] {cells : List ι} {contents : ι → List α} {i : ι} {v : List α}

theorem flatMap_update_of_notMem (hi : i ∉ cells) :
    cells.flatMap (Function.update contents i v) = cells.flatMap contents :=
  List.flatMap_congr fun j hj => by
    rw [Function.update_of_ne]
    rintro rfl
    exact hi hj

/-- The contents of the cells, those of one of them first. -/
theorem flatMap_perm (contents : ι → List α) (hi : i ∈ cells) :
    (cells.flatMap contents).Perm (contents i ++ (cells.erase i).flatMap contents) :=
  ((List.perm_cons_erase hi).flatMap_right contents).trans (List.Perm.of_eq List.flatMap_cons)

/-- **A change of one cell.** -/
theorem flatMap_update_perm (hc : cells.Nodup) (hi : i ∈ cells) (added taken : List α)
    (h : (taken ++ v).Perm (added ++ contents i)) :
    (taken ++ cells.flatMap (Function.update contents i v)).Perm
      (added ++ cells.flatMap contents) := by
  have hrest : (cells.erase i).flatMap (Function.update contents i v) =
      (cells.erase i).flatMap contents := flatMap_update_of_notMem hc.not_mem_erase
  have hafter := flatMap_perm (Function.update contents i v) hi
  rw [hrest, Function.update_self] at hafter
  refine (hafter.append_left taken).trans ?_
  rw [← List.append_assoc]
  refine (h.append_right _).trans ?_
  rw [List.append_assoc]
  exact ((flatMap_perm contents hi).append_left added).symm

variable {a : α}

theorem flatMap_put_perm (hc : cells.Nodup) (hi : i ∈ cells) :
    (cells.flatMap (Function.update contents i (contents i ++ [a]))).Perm
      (a :: cells.flatMap contents) :=
  flatMap_update_perm hc hi [a] [] (List.perm_append_singleton a _)

theorem flatMap_take_perm [DecidableEq α] (hc : cells.Nodup) (hi : i ∈ cells)
    (ha : a ∈ contents i) :
    (a :: cells.flatMap (Function.update contents i ((contents i).erase a))).Perm
      (cells.flatMap contents) :=
  flatMap_update_perm hc hi [] [a] (List.perm_cons_erase ha).symm

end Cells

end SingularityShell
