import Mathlib.Data.Nat.Notation
import Mathlib.Data.List.Range

/-!
# Pages

The first numbers cut into pages of one size, of which the last one may be shorter.

## Main definitions

* `Pages.page`, `Pages.pages` — one page, and all pages

## Main results

* `Pages.flatten_pages` — the pages are all numbers in order
* `Pages.mem_page_div` — the page that a number is on
* `Pages.pages_split` — what is before and behind a page
-/

namespace SingularityShell

namespace Pages

/-- The numbers below `n` on the page `k`. -/
def page (size n k : ℕ) : List ℕ := List.range' (k * size) (min size (n - k * size))

/-- How many pages there are. -/
def count (size n : ℕ) : ℕ := (n + size - 1) / size

def pages (size n : ℕ) : List (List ℕ) := (List.range (count size n)).map (page size n)

theorem length_page (size n k : ℕ) : (page size n k).length = min size (n - k * size) := by
  rw [page, List.length_range']

theorem flatten_take (size n k : ℕ) :
    ((List.range k).map (page size n)).flatten = List.range (min (k * size) n) := by
  induction k with
  | zero => simp
  | succ k ih =>
    rw [List.range_succ, List.map_append, List.flatten_append, ih, List.map_singleton,
      List.flatten_singleton, Nat.succ_mul, page]
    rcases le_total (k * size) n with hle | hle
    · rw [min_eq_left hle, List.range_eq_range', List.range_eq_range']
      have happend := @List.range'_append_1 0 (k * size) (min size (n - k * size))
      rw [Nat.zero_add] at happend
      rw [happend]
      congr 1
      omega
    · rw [min_eq_right hle, Nat.sub_eq_zero_of_le hle, Nat.min_zero, List.range'_zero,
        List.append_nil, min_eq_right (by omega)]

variable {size n : ℕ} (hsize : 0 < size)
include hsize

theorem le_count_mul : n ≤ count size n * size := by
  have hdiv := Nat.div_add_mod (n + size - 1) size
  have hmod := Nat.mod_lt (n + size - 1) hsize
  rw [count, Nat.mul_comm]
  omega

theorem lt_count_iff {k : ℕ} : k < count size n ↔ k * size < n := by
  rw [count, Nat.lt_iff_add_one_le, Nat.le_div_iff_mul_le hsize, Nat.succ_mul]
  omega

/-- The pages are all numbers in order. -/
theorem flatten_pages : (pages size n).flatten = List.range n := by
  rw [pages, flatten_take, min_eq_right (le_count_mul hsize)]

/-- A number is on the page of its quotient. -/
theorem mem_page_div {i : ℕ} (hi : i < n) : i ∈ page size n (i / size) := by
  have hdiv := Nat.div_add_mod i size
  have hmod := Nat.mod_lt i hsize
  rw [page, List.mem_range'_1, Nat.mul_comm]
  omega

/-- **What is before and behind a page.** -/
theorem pages_split {k : ℕ} (hk : k * size < n) : ∃ before after,
    pages size n = before ++ page size n k :: after ∧ before.flatten = List.range (k * size) ∧
      after.flatten.length = n - (k * size + size) := by
  have hlt : k < count size n := (lt_count_iff hsize).mpr hk
  obtain ⟨rest, hrest⟩ : ∃ rest, count size n = k + (1 + rest) := ⟨count size n - k - 1, by omega⟩
  have hsplit : pages size n = (List.range k).map (page size n) ++
      page size n k :: (List.range' (k + 1) rest).map (page size n) := by
    rw [pages, hrest, List.range_eq_range', List.range_eq_range', ← List.range'_append_1,
      ← List.range'_append_1, List.map_append, List.map_append, Nat.zero_add]
    rfl
  have hbefore : ((List.range k).map (page size n)).flatten = List.range (k * size) := by
    rw [flatten_take, min_eq_left hk.le]
  refine ⟨_, _, hsplit, hbefore, ?_⟩
  have hlength := congrArg List.length (flatten_pages (n := n) hsize)
  rw [hsplit, List.flatten_append, List.flatten_cons, hbefore, List.length_append,
    List.length_append, List.length_range, List.length_range, length_page] at hlength
  omega

end Pages

end SingularityShell
