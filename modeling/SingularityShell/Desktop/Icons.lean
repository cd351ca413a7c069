import Mathlib.Data.List.AList
import Mathlib.Data.List.Sort
import Mathlib.Data.Rat.Defs
import Mathlib.Data.Set.Finite.List
import SingularityShell.Lib.Ascii
import SingularityShell.Lib.Numeral

/-!
# Icons on the desktop

Each file of the desktop has an icon on a cell of a lattice. The cells are recorded under the names
of the files, in a table that is saved as a text with a line for each name. The icons are all placed
anew, in the order of their names, when the desktop is loaded, and one by one when a file changes.

The order in which a hash table is gone through is not determined: it comes with the event. A
coordinate is a number without a bound, and a position on the screen any fraction.

## Main definitions

* `DesktopIcons.GridLayout` — what is assumed of the library that the cells come from
* `DesktopIcons.loadDesktopIcons`, `updateSingleIcon`, `drop` — where the icons are put
* `DesktopIcons.step` — what can happen

## Main results

* `DesktopIcons.freeCell_spec` — the cell that an icon is put on
-/

namespace SingularityShell

namespace DesktopIcons

open Ascii

/-! ### Cells -/

abbrev Cell := ℤ × ℤ

/-- `ORIGIN_X`, `ORIGIN_Y` and `GRID_SIZE`. -/
def OnGrid (v : ℤ) : Prop := 100 ∣ v - 24

def OnLattice (c : Cell) : Prop := OnGrid c.1 ∧ OnGrid c.2

/-- `GridLayout`, with the origin of the axis, the size of a cell and the lowest place. -/
structure GridLayout where
  snap : ℚ → ℤ → ℤ → ℤ
  findFreeCell : Cell → ℤ → ℤ → ℤ → (Cell → Bool) → Cell
  snap_onGrid : ∀ v, OnGrid (snap v 24 100)
  snap_self : ∀ v : ℤ, OnGrid v → snap v 24 100 = v
  find_onLattice : ∀ (c : Cell) (bottom : ℤ) (taken : Cell → Bool), OnLattice c →
    OnLattice (findFreeCell c 24 100 bottom taken)
  find_free : ∀ (c : Cell) (bottom : ℤ) (taken : Cell → Bool), OnLattice c →
    Set.Finite {c | taken c = true} → taken (findFreeCell c 24 100 bottom taken) = false
  find_self : ∀ (c : Cell) (bottom : ℤ) (taken : Cell → Bool), OnLattice c → taken c = false →
    findFreeCell c 24 100 bottom taken = c

/-- `icon_positions` -/
abbrev Table := AList fun _ : Text => Cell

/-- What the shell runs with: the names that are displayed, the folding of letters, whether a file
is a directory and its content type, and the library. -/
structure Desktop where
  display : Text → Text
  down : Text → Text
  kind : Text → Bool × Text
  grid : GridLayout

structure State where
  /-- The names of the files, in the order of the directory. -/
  files : List Text
  positions : Table
  /-- The names and cells of the icons, in the order of the container. -/
  icons : List (Text × Cell)
  /-- `bottom_limit` -/
  bottom : ℤ

/-- `cell_taken` -/
def cellTaken (t : Table) (exclude : Option Text) (c : Cell) : Bool :=
  t.entries.any fun e => some e.1 ≠ exclude && e.2 = c

variable (d : Desktop)

/-- `snap_axis`, of both coordinates. -/
def snapCell (x y : ℚ) : Cell := (d.grid.snap x 24 100, d.grid.snap y 24 100)

/-- `find_free_cell` -/
def freeCell (bottom : ℤ) (t : Table) (exclude : Option Text) (c : Cell) : Cell :=
  d.grid.findFreeCell c 24 100 bottom (cellTaken t exclude)

/-! ### Single icons -/

def hidden (name : Text) : Bool := name.head? = some 46

/-- The first icon with the name is moved. -/
def moveIcon (name : Text) (c : Cell) : List (Text × Cell) → List (Text × Cell)
  | [] => []
  | icon :: icons => if icon.1 = name then (name, c) :: icons else icon :: moveIcon name c icons

/-- The handler of `drop`. -/
def drop (filename : Text) (x y : ℚ) (s : State) : State :=
  let c := freeCell d s.bottom s.positions (some filename) (snapCell d x y)
  if filename ∈ s.icons.map Prod.fst then
    { s with
      icons := moveIcon filename c s.icons
      positions := s.positions.insert filename c }
  else s

/-- `remove_single_icon` -/
def removeSingleIcon (name : Text) (s : State) : State :=
  { s with
    icons := s.icons.eraseP fun icon => icon.1 = name
    positions := s.positions.erase name }

/-- `update_single_icon` -/
def updateSingleIcon (name : Text) (s : State) : State :=
  if hidden name then s
  else if name ∉ s.files then removeSingleIcon name s
  else
    let icons := s.icons.eraseP fun icon => icon.1 = name
    match s.positions.lookup name with
    | some c => { s with icons := icons ++ [(d.display name, snapCell d c.1 c.2)] }
    | none =>
      let c := freeCell d s.bottom s.positions none (24, 24)
      { s with
        icons := icons ++ [(d.display name, c)]
        positions := s.positions.insert name c }

/-! ### All icons -/

/-- The names that are shown of the files. -/
def shown (files : List Text) : List Text := (files.map d.display).filter fun name => !hidden name

/-- The loop of `load_desktop_icons`. -/
def placeIcon (bottom : ℤ) (old : Table) (placed : Table × List (Text × Cell)) (name : Text) :
    Table × List (Text × Cell) :=
  let start := match old.lookup name with
    | some c => snapCell d c.1 c.2
    | none => (24, 24)
  let c := freeCell d bottom placed.1 none start
  (placed.1.insert name c, placed.2 ++ [(name, c)])

def loadDesktopIcons (s : State) : State :=
  let placed := ((shown d s.files).insertionSort (· ≤ ·)).foldl
    (placeIcon d s.bottom s.positions) (∅, [])
  { s with positions := placed.1, icons := placed.2 }

/-- The loops that give the names cells, column after column. -/
def arrange : ℤ → ℤ → List Text → Table → Table
  | _, _, [], t => t
  | x, y, name :: names, t =>
    if y + 100 > 800 then arrange (x + 100) 48 names (t.insert name (x, y))
    else arrange x (y + 100) names (t.insert name (x, y))

/-- `sort_icons_by_name` -/
def sortIconsByName (order : List Text) (s : State) : State :=
  loadDesktopIcons d { s with
    positions := arrange 24 48 (order.insertionSort fun a b => d.down a ≤ d.down b) s.positions }

/-- The comparison of `sort_icons_by_type`. -/
def typeLe (a b : Text) : Bool :=
  if (d.kind a).1 ≠ (d.kind b).1 then (d.kind a).1
  else if (d.kind a).2 ≠ (d.kind b).2 then (d.kind a).2 ≤ (d.kind b).2
  else d.down a ≤ d.down b

/-- `sort_icons_by_type` -/
def sortIconsByType (s : State) : State :=
  loadDesktopIcons d { s with
    positions := arrange 24 48
      ((shown d s.files).insertionSort fun a b => typeLe d a b) s.positions }

/-- `arrange_icons_to_grid` -/
def arrangeIconsToGrid (order : List Text) (s : State) : State :=
  loadDesktopIcons d { s with positions := arrange 24 48 order s.positions }

/-! ### The file of the positions -/

/-- `"%s:%d,%d"` -/
def line (name : Text) (c : Cell) : Text := name ++ 58 :: (signed c.1 ++ 44 :: signed c.2)

/-- `save_positions` -/
def savePositions (order : List Text) (t : Table) : Text :=
  order.flatMap fun name =>
    match t.lookup name with
    | some c => line name c ++ [10]
    | none => []

def parseLine (text : Text) : Option (Text × Cell) :=
  match text.splitOn 58 with
  | [name, position] =>
    match position.splitOn 44 with
    | [x, y] => some (name, Numeral.atoi x, Numeral.atoi y)
    | _ => none
  | _ => none

def loadLines (lines : List Text) (t : Table) : Table :=
  lines.foldl (fun t text =>
    match parseLine text with
    | some (name, c) => t.insert name c
    | none => t) t

/-- `load_positions` -/
def loadPositions (text : Text) : Table := loadLines (text.splitOn 10) ∅

/-! ### Events -/

inductive Event where
  /-- A file is there, or is not any more. -/
  | appear (name : Text)
  | vanish (name : Text)
  /-- The monitor tells of a file that was created or changed, or deleted. -/
  | changed (name : Text)
  | deleted (name : Text)
  | drop (filename : Text) (x y : ℚ)
  | sortByName (order : List Text)
  | sortByType
  | arrangeToGrid (order : List Text)
  | refresh
  /-- The shell is started again. -/
  | restart (order : List Text)
  | resize (bottom : ℤ)

def step (s : State) : Event → State
  | .appear name => { s with files := if name ∈ s.files then s.files else s.files ++ [name] }
  | .vanish name => { s with files := s.files.erase name }
  | .changed name => updateSingleIcon d name s
  | .deleted name => if hidden name then s else removeSingleIcon name s
  | .drop filename x y => drop d filename x y s
  | .sortByName order => sortIconsByName d order s
  | .sortByType => sortIconsByType d s
  | .arrangeToGrid order => arrangeIconsToGrid d order s
  | .refresh => loadDesktopIcons d s
  | .restart order =>
    loadDesktopIcons d { s with
      positions := loadPositions (savePositions order s.positions)
      icons := [] }
  | .resize bottom => { s with bottom }

/-- The shell is started with some positions. -/
def start (files : List Text) (positions : Table) (bottom : ℤ) : State :=
  loadDesktopIcons d { files, positions, icons := [], bottom }

variable {d}

theorem cellTaken_iff {t : Table} {exclude : Option Text} {c : Cell} :
    cellTaken t exclude c = true ↔ ∃ name, some name ≠ exclude ∧ t.lookup name = some c := by
  rw [cellTaken, List.any_eq_true]
  constructor
  · rintro ⟨⟨name, c'⟩, he, hc⟩
    simp only [ne_eq, Bool.and_eq_true, decide_eq_true_eq] at hc
    exact ⟨name, hc.1, AList.mem_lookup_iff.2 (hc.2 ▸ he)⟩
  · rintro ⟨name, hne, hlookup⟩
    exact ⟨⟨name, c⟩, AList.mem_lookup_iff.1 hlookup, by simp [hne]⟩

theorem finite_cellTaken (t : Table) (exclude : Option Text) :
    Set.Finite {c | cellTaken t exclude c = true} := by
  refine (t.entries.map fun e => e.2).finite_toSet.subset fun c hc => ?_
  obtain ⟨name, -, hlookup⟩ := cellTaken_iff.1 hc
  exact List.mem_map.2 ⟨⟨name, c⟩, AList.mem_lookup_iff.1 hlookup, rfl⟩

theorem snapCell_onLattice (x y : ℚ) : OnLattice (snapCell d x y) :=
  ⟨d.grid.snap_onGrid x, d.grid.snap_onGrid y⟩

theorem snapCell_self {c : Cell} (h : OnLattice c) : snapCell d c.1 c.2 = c :=
  Prod.ext (d.grid.snap_self c.1 h.1) (d.grid.snap_self c.2 h.2)

/-- **The cell that an icon is put on** is free, and the one that was asked for if that is free. -/
theorem freeCell_spec (bottom : ℤ) (t : Table) (exclude : Option Text) {c : Cell}
    (h : OnLattice c) :
    OnLattice (freeCell d bottom t exclude c) ∧
      cellTaken t exclude (freeCell d bottom t exclude c) = false ∧
        (cellTaken t exclude c = false → freeCell d bottom t exclude c = c) :=
  ⟨d.grid.find_onLattice c bottom _ h, d.grid.find_free c bottom _ h (finite_cellTaken t exclude),
    d.grid.find_self c bottom _ h⟩

end DesktopIcons

end SingularityShell
