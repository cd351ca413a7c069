import Mathlib.Logic.Function.Basic
import SingularityShell.Lib.Binary64
import SingularityShell.Lib.Machine
import SingularityShell.Lib.Rounding

/-!
# The columns of the scrolling layout

`TilingManager` puts the windows into columns, one beside the other on a strip that is wider than
the screen, and scrolls the strip. A window and a column are the objects they are: a column is known
by its identity. Sums and products of sizes wrap around; what is computed in doubles is rounded, and
is cut to an integer when it is cast.

## Main definitions

* `Tiling.Column`, `Tiling.ScrollingGroup` — the columns of a group, and where it is scrolled to
* `Tiling.Manager` — the group, and what the manager knows of its windows
* `Tiling.rectForWindow` — where a window is shown
* `Tiling.syncGroup` — the group after the windows have changed
-/

namespace SingularityShell

namespace Tiling

open Binary64 Machine Rounding

/-- A window object. -/
abbrev Window := ℕ

structure Column where
  id : ℕ
  windows : List Window
  width : ℤ
  deriving DecidableEq

/-- A rectangle of machine integers, as its edges are. -/
structure Workarea where
  x : ℤ
  y : ℤ
  width : ℤ
  height : ℤ
  x_int : wrap32 x = x
  y_int : wrap32 y = y
  right_int : wrap32 (x + width) = x + width
  bottom_int : wrap32 (y + height) = y + height

/-- What is read from outside of the manager. -/
structure Env where
  /-- `tiling-column-width`, in percent -/
  columnWidth : ℤ
  /-- `tiling-gap` -/
  gap : ℤ
  scrollingTiled : Window → Bool
  /-- position and size of a window, unless the compositor does not know it, and whether it is
  maximised or in full screen -/
  geometry : Window → Option (ℤ × ℤ × ℤ × ℤ × Bool)

structure ScrollingGroup where
  area : Workarea
  outputAreas : List Workarea
  referenceWidth : ℤ
  columns : List Column
  focused : Option Window
  interactionWindow : Option Window
  /-- the value of a double -/
  offset : ℚ

structure Manager where
  group : ScrollingGroup
  insertionAnchors : Window → Option Window
  startupWindows : List Window
  lastScrollingFocus : Option Window
  /-- the identity of the next column -/
  nextColumn : ℕ

def minColumnWidth : ℤ := 240

variable (env : Env) (group : ScrollingGroup)

def scrollGap : ℤ := clamp env.gap 0 64

def defaultColumnWidth : ℤ :=
  let available := max 1 group.referenceWidth
  let width := (wrap32 (group.referenceWidth * env.columnWidth)).tdiv 100
  min available (max minColumnWidth width)

/-- `initial_column_width`, with the windows from before the start that are left. -/
def initialColumnWidth (startup : List Window) (win : Window) : ℤ × List Window :=
  let fallback := defaultColumnWidth env group
  if !env.scrollingTiled win ∧ win ∉ startup then (fallback, startup)
  else match env.geometry win with
    | none => (fallback, startup)
    | some (x, y, width, height, unusual) =>
      let left := startup.filter (· ≠ win)
      if width ≤ 0 ∨ height ≤ 0 ∨ unusual ∨ wrap32 (x + width) ≤ group.area.x ∨
          group.area.x + group.area.width ≤ x ∨ wrap32 (y + height) ≤ group.area.y ∨
          group.area.y + group.area.height ≤ y then
        (fallback, left)
      else
        let available := max minColumnWidth group.referenceWidth
        (min available (max minColumnWidth width), left)

/-! ### Where a window is shown -/

/-- A column that has no width yet gets the one that is set. -/
def storeWidth (column : Column) : Column :=
  if column.width ≤ 0 then { column with width := defaultColumnWidth env group } else column

/-- `width_for`, which also stores the width in the column. -/
def widthFor (column : Column) : ℤ :=
  min (max minColumnWidth group.referenceWidth)
    (max minColumnWidth (storeWidth env group column).width)

def columnForWindow (columns : List Column) (win : Window) : Option Column :=
  columns.find? fun column => win ∈ column.windows

/-- `logical_x`. A double holds the sums of integers as they are, below `2^53`. -/
def logicalX (columns : List Column) (target : ℕ) : ℤ :=
  ((columns.takeWhile (·.id != target)).map fun column =>
    wrap32 (widthFor env group column + scrollGap env)).sum

structure ScrollingRect where
  x : ℤ
  y : ℤ
  width : ℤ
  height : ℤ

/-- How much of a column lies over an output. -/
def overlap (x columnWidth : ℤ) (area : Workarea) : ℤ :=
  max 0 (wrap32 (min (wrap32 (x + columnWidth)) (area.x + area.width) - max x area.x))

/-- The vertical extent of the outputs that a column overlaps, weighted by how much it does. -/
def band (x columnWidth : ℤ) : ℤ × ℤ :=
  let sums := group.outputAreas.foldl
    (fun (y, bottom, total) area =>
      let overlap := overlap x columnWidth area
      if overlap = 0 then (y, bottom, total)
      else (fl (y + wrap32 (area.y * overlap)),
        fl (bottom + wrap32 ((area.y + area.height) * overlap)), wrap32 (total + overlap)))
    ((0, 0, 0) : ℚ × ℚ × ℤ)
  if 0 < sums.2.2 then
    let y := wrap32 (roundAway (fl (sums.1 / sums.2.2)))
    (y, max 1 (wrap32 (wrap32 (roundAway (fl (sums.2.1 / sums.2.2))) - y)))
  else (group.area.y, group.area.height)

def rectForCount (column : Column) (row count : ℕ) : ScrollingRect :=
  let x := wrap32 (group.area.x +
    wrap32 (roundAway (fl (logicalX env group group.columns column.id - group.offset))))
  let columnWidth := widthFor env group column
  let (areaY, areaHeight) := band group x columnWidth
  let totalHeight := max (count : ℤ) (wrap32 (areaHeight - wrap32 ((count - 1) * scrollGap env)))
  let baseHeight := totalHeight.tdiv count
  let remainder := totalHeight.tmod count
  let heightOf (i : ℕ) : ℤ := baseHeight + if (i : ℤ) < remainder then 1 else 0
  let y := (List.range row).foldl (fun y i => wrap32 (y + (heightOf i + scrollGap env))) areaY
  ⟨x, y, columnWidth, heightOf row⟩

def rectForWindow (win : Window) : Option ScrollingRect :=
  (columnForWindow group.columns win).map fun column =>
    rectForCount env group column (column.windows.idxOf win) (max 1 column.windows.length)

/-! ### Following the windows -/

/-- The columns that are in front of one get their widths when it is looked for. -/
def storeWidths (columns : List Column) (target : ℕ) : List Column :=
  (columns.takeWhile (·.id != target)).map (storeWidth env group) ++
    columns.dropWhile (·.id != target)

/-- The window that is to stay in its place. -/
def anchorFor (candidates : List Window) : Option Window :=
  (group.focused.filter (· ∈ candidates)).or
    ((group.columns.flatMap (·.windows)).find? (· ∈ candidates))

/-- The first column that has the window loses it. -/
def removeWindow (win : Window) : List Column → List Column
  | [] => []
  | column :: columns =>
    if win ∈ column.windows then { column with windows := column.windows.erase win } :: columns
    else column :: removeWindow win columns

/-- A window of the group is gone. -/
def dropStale (manager : Manager) (win : Window) : Manager :=
  { manager with
    group := { manager.group with
      columns := removeWindow win manager.group.columns
      focused := manager.group.focused.filter (· ≠ win)
      interactionWindow := manager.group.interactionWindow.filter (· ≠ win) }
    insertionAnchors := Function.update manager.insertionAnchors win none
    lastScrollingFocus := manager.lastScrollingFocus.filter (· ≠ win) }

def removeEmptyColumns (columns : List Column) : List Column :=
  columns.filter fun column => column.windows ≠ []

/-- The column is put after another, or at the end. -/
def insertColumn (columns : List Column) (anchorColumn : Option Column) (column : Column) :
    List Column :=
  match anchorColumn with
  | none => columns ++ [column]
  | some anchor => columns.insertIdx (columns.findIdx (·.id = anchor.id) + 1) column

/-- A candidate that has no column gets one. -/
def adopt (manager : Manager) (win : Window) : Manager :=
  if (columnForWindow manager.group.columns win).isSome then manager
  else
    let (width, startup) := initialColumnWidth env manager.group manager.startupWindows win
    let anchorColumn :=
      (manager.insertionAnchors win).bind (columnForWindow manager.group.columns)
    { manager with
      group := { manager.group with
        columns := insertColumn manager.group.columns anchorColumn
          ⟨manager.nextColumn, [win], width⟩ }
      insertionAnchors := Function.update manager.insertionAnchors win none
      startupWindows := startup
      nextColumn := manager.nextColumn + 1 }

/-- The columns have got their widths up to the one of the window. -/
def measured (manager : Manager) (win : Window) : Manager :=
  match columnForWindow manager.group.columns win with
  | none => manager
  | some column =>
    { manager with group := { manager.group with
        columns := (storeWidths env manager.group manager.group.columns column.id).map
          fun c => if c.id = column.id then storeWidth env manager.group c else c } }

/-- The strip is scrolled so that the window is where its rectangle was. -/
def restore (manager : Manager) (win : Window) (rect : ScrollingRect) : Manager :=
  match columnForWindow manager.group.columns win with
  | none => manager
  | some column =>
    let columns := manager.group.columns
    let logical := logicalX env manager.group columns column.id
    { manager with group := { manager.group with
        columns := storeWidths env manager.group columns column.id
        offset := (manager.group.area.x + logical - rect.x : ℤ) } }

/-- The middle of `sync_group`: the windows that are gone and the ones that are new. -/
def follow (candidates : List Window) (manager : Manager) : Manager :=
  let stale := (manager.group.columns.flatMap (·.windows)).filter (· ∉ candidates)
  let dropped := stale.foldl dropStale manager
  candidates.foldl (adopt env) { dropped with group := { dropped.group with
    columns := removeEmptyColumns dropped.group.columns } }

/-- `sync_group` -/
def syncGroup (manager : Manager) (candidates : List Window) : Manager :=
  let anchor := anchorFor manager.group candidates
  let anchorRect := anchor.bind (rectForWindow env manager.group)
  let followed := follow env candidates (anchor.elim manager (measured env manager))
  match anchor, anchorRect with
  | some win, some rect => restore env followed win rect
  | _, _ => followed

end Tiling

end SingularityShell
