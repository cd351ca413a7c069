import Mathlib.Algebra.Order.BigOperators.Group.List
import SingularityShell.Tiling.Group

/-!
# The rows of a column

A column of the scrolling layout shows its windows one below the other, over the height of the
outputs that it overlaps. The height is divided among the rows, and the first rows get what is left
over.

## Main definitions

* `Tiling.usableTop`, `Tiling.usableBottom` — the outputs of a column, each weighted by its overlap
* `Tiling.Tiles` — rows that fill a height with a gap between them
* `Tiling.stackPreview` — where a window is shown before it is put into a column

## Main results

* `Tiling.sum_rowHeight` — where a row begins
* `Tiling.rectForCount_tiles` — the rows of a column fill the usable height
-/

namespace SingularityShell

namespace Tiling

open Binary64 Machine Rounding

variable (env : Env) (group : ScrollingGroup) (column : Column)

/-! ### The usable height -/

/-- The outputs that a column overlaps. -/
def overlapped (x columnWidth : ℤ) : List Workarea :=
  group.outputAreas.filter (overlap x columnWidth · ≠ 0)

/-- How much of a column lies over all of them. -/
def totalOverlap (x columnWidth : ℤ) : ℤ :=
  wrap32 ((overlapped group x columnWidth).map (overlap x columnWidth)).sum

/-- The mean of a position over the outputs, weighted by the overlap, as it is computed in
doubles. -/
def weightedMean (x columnWidth : ℤ) (position : Workarea → ℤ) : ℤ :=
  wrap32 (roundAway (fl ((overlapped group x columnWidth).foldl
    (fun sum area => fl (sum + wrap32 (position area * overlap x columnWidth area))) 0 /
      totalOverlap group x columnWidth)))

/-- Where a column is shown, and how wide. -/
def columnX : ℤ :=
  wrap32 (group.area.x +
    wrap32 (roundAway (fl (logicalX env group group.columns column.id - group.offset))))

def usableTop : ℤ :=
  if 0 < totalOverlap group (columnX env group column) (widthFor env group column) then
    weightedMean group (columnX env group column) (widthFor env group column) (·.y)
  else group.area.y

def usableBottom : ℤ :=
  if 0 < totalOverlap group (columnX env group column) (widthFor env group column) then
    weightedMean group (columnX env group column) (widthFor env group column) fun area =>
      area.y + area.height
  else group.area.y + group.area.height

/-! ### Rows -/

/-- Rows that fill a height, with a gap between them and heights that differ by one at most. -/
structure Tiles (rows : ℕ → ScrollingRect) (count : ℕ) (top bottom gap : ℤ) : Prop where
  same : ∃ x width, ∀ row < count, (rows row).x = x ∧ (rows row).width = width
  first : (rows 0).y = top
  next : ∀ row, row + 1 < count → (rows (row + 1)).y = (rows row).y + (rows row).height + gap
  last : (rows (count - 1)).y + (rows (count - 1)).height = bottom
  pos : ∀ row < count, 1 ≤ (rows row).height
  antitone : ∀ row row', row ≤ row' → row' < count → (rows row').height ≤ (rows row).height
  even : ∀ row < count, ∀ row' < count, (rows row).height ≤ (rows row').height + 1

/-- `show_stack_preview`, for a place in a column. -/
def stackPreview (index : ℕ) : ScrollingRect :=
  rectForCount env group column index (column.windows.length + 1)

/-- The height of a row: the first ones get what is left over. -/
def rowHeight (total : ℤ) (count row : ℕ) : ℤ :=
  total.tdiv count + if (row : ℤ) < total.tmod count then 1 else 0

variable {total : ℤ} {count : ℕ}

/-! ### Dividing the height -/

/-- **Where a row begins.** -/
theorem sum_rowHeight (count : ℕ) (h : 0 ≤ total) (gap : ℤ) (row : ℕ) :
    ((List.range row).map fun i => rowHeight total count i + gap).sum =
      row * (total / count) + min (row : ℤ) (total % count) + row * gap := by
  have hnonneg : 0 ≤ total % count ∨ count = 0 := by
    rcases Nat.eq_zero_or_pos count with hzero | hpos
    · exact .inr hzero
    · exact .inl (Int.emod_nonneg _ (by omega))
  have hmod : 0 ≤ total % count := by
    rcases hnonneg with hmod | rfl
    · exact hmod
    · simpa using h
  induction row with
  | zero => simp [hmod]
  | succ row ih =>
    rw [List.range_succ, List.map_append, List.sum_append, ih, List.map_singleton,
      List.sum_singleton, rowHeight, Int.tdiv_eq_ediv_of_nonneg h, Int.tmod_eq_emod_of_nonneg h]
    push_cast
    split_ifs with hlt
    · rw [min_eq_left hlt.le, min_eq_left (by omega)]
      ring
    · rw [min_eq_right (not_lt.mp hlt), min_eq_right (by omega)]
      ring

theorem rowHeight_eq (h : 0 ≤ total) (row : ℕ) :
    rowHeight total count row = total / count + if (row : ℤ) < total % count then 1 else 0 := by
  rw [rowHeight, Int.tdiv_eq_ediv_of_nonneg h, Int.tmod_eq_emod_of_nonneg h]

/-- The heights differ by one at most, and do not grow. -/
theorem rowHeight_bounds (h : 0 ≤ total) (row row' : ℕ) :
    rowHeight total count row ≤ rowHeight total count row' + 1 ∧
      (row ≤ row' → rowHeight total count row' ≤ rowHeight total count row) := by
  rw [rowHeight_eq h, rowHeight_eq h]
  split_ifs <;> refine ⟨by omega, fun hle => by omega⟩

theorem one_le_rowHeight (hcount : 0 < count) (h : (count : ℤ) ≤ total) (row : ℕ) :
    1 ≤ rowHeight total count row := by
  have hone : 1 ≤ total / count := by
    rw [Int.le_ediv_iff_mul_le (by omega)]
    omega
  rw [rowHeight_eq (by omega)]
  split_ifs <;> omega

/-! ### The outputs of a column -/

variable {env group column}

theorem foldl_band (x columnWidth : ℤ) (areas : List Workarea) (y bottom : ℚ) {sum : ℤ}
    (hsum : wrap32 sum = sum) :
    areas.foldl (fun ((y, bottom, total) : ℚ × ℚ × ℤ) area =>
      if overlap x columnWidth area = 0 then (y, bottom, total)
      else (fl (y + wrap32 (area.y * overlap x columnWidth area)),
        fl (bottom + wrap32 ((area.y + area.height) * overlap x columnWidth area)),
          wrap32 (total + overlap x columnWidth area))) (y, bottom, sum) =
    ((areas.filter (overlap x columnWidth · ≠ 0)).foldl
        (fun sum area => fl (sum + wrap32 (area.y * overlap x columnWidth area))) y,
      (areas.filter (overlap x columnWidth · ≠ 0)).foldl
        (fun sum area => fl (sum + wrap32 ((area.y + area.height) * overlap x columnWidth area)))
          bottom,
      (areas.filter (overlap x columnWidth · ≠ 0)).foldl
        (fun sum area => wrap32 (sum + overlap x columnWidth area)) sum) := by
  induction areas generalizing y bottom sum with
  | nil => rfl
  | cons area areas ih =>
    rw [List.foldl_cons]
    dsimp only
    by_cases hzero : overlap x columnWidth area = 0
    · rw [if_pos hzero, ih _ _ hsum, List.filter_cons_of_neg (by simpa using hzero)]
    · rw [if_neg hzero, ih _ _ (wrap32_wrap32 _), List.filter_cons_of_pos (by simpa using hzero),
        List.foldl_cons, List.foldl_cons, List.foldl_cons]

/-- **The usable height** is what the code computes, when there is some and it is an `int`. -/
theorem band_eq (env : Env) (group : ScrollingGroup) (column : Column)
    (h : 1 ≤ usableBottom env group column - usableTop env group column)
    (h' : usableBottom env group column - usableTop env group column < 2 ^ 31) :
    band group (columnX env group column) (widthFor env group column) =
      (usableTop env group column, usableBottom env group column - usableTop env group column) := by
  have hband : band group (columnX env group column) (widthFor env group column) =
      if 0 < totalOverlap group (columnX env group column) (widthFor env group column) then
        (weightedMean group (columnX env group column) (widthFor env group column) (·.y),
          max 1 (wrap32 (weightedMean group (columnX env group column) (widthFor env group column)
            (fun area => area.y + area.height) -
              weightedMean group (columnX env group column) (widthFor env group column) (·.y))))
      else (group.area.y, group.area.height) := by
    have hfold := foldl_band (columnX env group column) (widthFor env group column)
      group.outputAreas 0 0 wrap32_zero
    rw [foldl_wrap32 _ _ wrap32_zero, zero_add] at hfold
    exact congrArg (fun sums : ℚ × ℚ × ℤ => if 0 < sums.2.2 then
      (wrap32 (roundAway (fl (sums.1 / sums.2.2))),
        max 1 (wrap32 (wrap32 (roundAway (fl (sums.2.1 / sums.2.2))) -
          wrap32 (roundAway (fl (sums.1 / sums.2.2))))))
        else (group.area.y, group.area.height)) hfold
  rw [hband]
  by_cases hpos : 0 < totalOverlap group (columnX env group column) (widthFor env group column)
  · rw [usableTop, usableBottom, if_pos hpos, if_pos hpos] at h h' ⊢
    rw [if_pos hpos, wrap32_eq (by omega) h', max_eq_right h]
  · rw [usableTop, usableBottom, if_neg hpos, if_neg hpos, if_neg hpos, add_sub_cancel_left]

/-- The edges of the usable height are machine integers. -/
theorem usable_int (env : Env) (group : ScrollingGroup) (column : Column) :
    wrap32 (usableTop env group column) = usableTop env group column ∧
      wrap32 (usableBottom env group column) = usableBottom env group column := by
  rw [usableTop, usableBottom]
  split_ifs
  · exact ⟨wrap32_wrap32 _, wrap32_wrap32 _⟩
  · exact ⟨group.area.y_int, group.area.bottom_int⟩

/-- The height that is divided among the rows. -/
def sharedHeight (env : Env) (group : ScrollingGroup) (column : Column) (count : ℕ) : ℤ :=
  usableBottom env group column - usableTop env group column - (count - 1) * scrollGap env

/-- A column is high enough for a pixel a row and the gaps, and its height is an `int`. -/
structure IsHighEnough (env : Env) (group : ScrollingGroup) (column : Column) (count : ℕ) :
    Prop where
  low : count + (count - 1) * scrollGap env ≤
    usableBottom env group column - usableTop env group column
  high : usableBottom env group column - usableTop env group column < 2 ^ 31

/-- A row begins before the height ends. -/
theorem sum_rowHeight_bounds (h : 0 ≤ total) {gap : ℤ} (hgap : 0 ≤ gap) {row : ℕ}
    (hrow : row < count) :
    0 ≤ ((List.range row).map fun i => rowHeight total count i + gap).sum ∧
      ((List.range row).map fun i => rowHeight total count i + gap).sum ≤
        total + (count - 1) * gap := by
  have hdiv : 0 ≤ total / count := Int.ediv_nonneg h (by omega)
  have hmod : 0 ≤ total % count := Int.emod_nonneg _ (by omega)
  have htotal := Int.mul_ediv_add_emod total count
  have hheights : (row : ℤ) * (total / count) ≤ count * (total / count) :=
    mul_le_mul_of_nonneg_right (by omega) hdiv
  have hgaps : (row : ℤ) * gap ≤ (count - 1) * gap := mul_le_mul_of_nonneg_right (by omega) hgap
  have hheights' : 0 ≤ (row : ℤ) * (total / count) := mul_nonneg (by omega) hdiv
  have hgaps' : 0 ≤ (row : ℤ) * gap := mul_nonneg (by omega) hgap
  rw [sum_rowHeight count h]
  omega

theorem rectForCount_eq (hcount : 1 ≤ count) (h : IsHighEnough env group column count) {row : ℕ}
    (hrow : row < count) : rectForCount env group column row count =
      ⟨columnX env group column, usableTop env group column + ((List.range row).map fun i =>
          rowHeight (sharedHeight env group column count) count i + scrollGap env).sum,
        widthFor env group column,
        rowHeight (sharedHeight env group column count) count row⟩ := by
  obtain ⟨hlow, hhigh⟩ := h
  have hgap : 0 ≤ scrollGap env := le_clamp (by omega)
  have hgaps : 0 ≤ ((count : ℤ) - 1) * scrollGap env := mul_nonneg (by omega) hgap
  have hband := band_eq env group column (by omega) hhigh
  obtain ⟨htop, hbottom⟩ := usable_int env group column
  have hint := wrap32_bounds (usableTop env group column)
  have hint' := wrap32_bounds (usableBottom env group column)
  rw [htop] at hint
  rw [hbottom] at hint'
  have hshared : wrap32 (usableBottom env group column - usableTop env group column -
      wrap32 ((count - 1) * scrollGap env)) = sharedHeight env group column count := by
    rw [wrap32_eq (x := (count - 1) * scrollGap env) (by omega) (by omega),
      wrap32_eq (by omega) (by omega), sharedHeight]
  have hcountLe : (count : ℤ) ≤ sharedHeight env group column count := by
    rw [sharedHeight]
    omega
  -- no row begins below the bottom, so its place does not wrap around
  obtain ⟨hsum, hsum'⟩ :=
    sum_rowHeight_bounds (by omega : 0 ≤ sharedHeight env group column count) hgap hrow
  have hy : wrap32 (usableTop env group column + ((List.range row).map fun i =>
      rowHeight (sharedHeight env group column count) count i + scrollGap env).sum) =
      usableTop env group column + ((List.range row).map fun i =>
        rowHeight (sharedHeight env group column count) count i + scrollGap env).sum := by
    rw [sharedHeight] at hsum hsum' ⊢
    exact wrap32_eq (by omega) (by omega)
  rw [rectForCount]
  dsimp only
  rw [← columnX, hband]
  dsimp only
  rw [hshared, max_eq_right hcountLe, foldl_wrap32 _ _ htop]
  exact congrArg (fun y => ScrollingRect.mk _ y _ _) hy

theorem Tiles.congr {rows rows' : ℕ → ScrollingRect} {top bottom gap : ℤ} (hcount : 1 ≤ count)
    (h : Tiles rows count top bottom gap) (heq : ∀ row < count, rows' row = rows row) :
    Tiles rows' count top bottom gap where
  same := by
    obtain ⟨x, width, hsame⟩ := h.same
    exact ⟨x, width, fun row hrow => (heq row hrow).symm ▸ hsame row hrow⟩
  first := by rw [heq 0 hcount, h.first]
  next row hrow := by rw [heq _ hrow, heq row (by omega), h.next row hrow]
  last := by rw [heq _ (by omega), h.last]
  pos row hrow := (heq row hrow).symm ▸ h.pos row hrow
  antitone row row' hle hrow := by
    rw [heq _ hrow, heq row (by omega)]
    exact h.antitone row row' hle hrow
  even row hrow row' hrow' := by
    rw [heq _ hrow, heq _ hrow']
    exact h.even row hrow row' hrow'

/-- Rows of divided height tile it. -/
theorem tiles_of_isHighEnough (hcount : 1 ≤ count) (h : IsHighEnough env group column count) :
    Tiles (fun row => rectForCount env group column row count) count
      (usableTop env group column) (usableBottom env group column) (scrollGap env) := by
  have hshared : (count : ℤ) ≤ sharedHeight env group column count := by
    have hlow := h.low
    rw [sharedHeight]
    omega
  have hnonneg : 0 ≤ sharedHeight env group column count := by omega
  refine Tiles.congr hcount ?_ fun row hrow => rectForCount_eq hcount h hrow
  refine ⟨⟨_, _, fun row _ => ⟨rfl, rfl⟩⟩, ?_, fun row _ => ?_, ?_, fun row _ => ?_,
    fun row row' hle _ => (rowHeight_bounds hnonneg row row').2 hle,
    fun row _ row' _ => (rowHeight_bounds hnonneg row row').1⟩
  · simp
  · dsimp only
    rw [List.range_succ, List.map_append, List.sum_append, List.map_singleton, List.sum_singleton]
    ring
  · -- the last row ends where the one after it would begin, less a gap
    have hsum := sum_rowHeight count hnonneg (scrollGap env) (count - 1 + 1)
    have hmod : sharedHeight env group column count % count < count :=
      Int.emod_lt_of_pos _ (by omega)
    have hdiv := Int.mul_ediv_add_emod (sharedHeight env group column count) count
    rw [List.range_succ, List.map_append, List.sum_append, List.map_singleton, List.sum_singleton,
      Nat.sub_add_cancel hcount, min_eq_right hmod.le] at hsum
    have htotal : sharedHeight env group column count =
      usableBottom env group column - usableTop env group column -
        (count - 1) * scrollGap env := rfl
    dsimp only
    linarith
  · exact one_le_rowHeight hcount hshared row

/-- **The rows of a column.** When the usable height is enough for a pixel a row and the gaps, the
rows fill it from its top to its bottom, and the previews of a place in the column do so with one
row more. -/
theorem rectForCount_tiles (env : Env) (group : ScrollingGroup) (column : Column) :
    (∀ count : ℕ, 1 ≤ count → IsHighEnough env group column count →
      Tiles (fun row => rectForCount env group column row count) count
        (usableTop env group column) (usableBottom env group column) (scrollGap env)) ∧
    (IsHighEnough env group column (column.windows.length + 1) →
      Tiles (stackPreview env group column) (column.windows.length + 1)
        (usableTop env group column) (usableBottom env group column) (scrollGap env)) :=
  ⟨fun _ hcount h => tiles_of_isHighEnough hcount h,
    fun h => tiles_of_isHighEnough (Nat.succ_le_succ (Nat.zero_le _)) h⟩

/-- A column half over an output of 1080 pixels and half over one of 800, with gaps of 10. -/
def sampleEnv : Env := ⟨50, 10, fun _ => true, fun _ => none⟩

def sampleColumn : Column := ⟨0, [1, 2], 800⟩

def sampleGroup : ScrollingGroup :=
  ⟨⟨0, 0, 2000, 1080, by decide, by decide, by decide, by decide⟩,
    [⟨0, 0, 1000, 1080, by decide, by decide, by decide, by decide⟩,
      ⟨1000, 0, 1000, 800, by decide, by decide, by decide, by decide⟩],
    1000, [sampleColumn], none, none, -600⟩

theorem isHighEnough_sample (count : ℕ) (h : count ≤ 86) :
    IsHighEnough sampleEnv sampleGroup sampleColumn count := by
  have htop : usableTop sampleEnv sampleGroup sampleColumn = 0 := by decide +kernel
  have hbottom : usableBottom sampleEnv sampleGroup sampleColumn = 940 := by decide +kernel
  have hgap : scrollGap sampleEnv = 10 := by decide
  refine ⟨?_, ?_⟩
  · rw [htop, hbottom, hgap]
    omega
  · rw [htop, hbottom]
    decide

theorem rectForCount_tiles_sample :
    Tiles (fun row => rectForCount sampleEnv sampleGroup sampleColumn row 2) 2
        (usableTop sampleEnv sampleGroup sampleColumn)
        (usableBottom sampleEnv sampleGroup sampleColumn) (scrollGap sampleEnv) ∧
      Tiles (stackPreview sampleEnv sampleGroup sampleColumn) 3
        (usableTop sampleEnv sampleGroup sampleColumn)
        (usableBottom sampleEnv sampleGroup sampleColumn) (scrollGap sampleEnv) :=
  ⟨(rectForCount_tiles sampleEnv sampleGroup sampleColumn).1 2 (by decide)
      (isHighEnough_sample 2 (by decide)),
    (rectForCount_tiles sampleEnv sampleGroup sampleColumn).2
      (isHighEnough_sample 3 (by decide))⟩

end Tiling

end SingularityShell
