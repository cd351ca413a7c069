import Mathlib.Data.Rat.Floor
import Mathlib.Tactic.Ring
import SingularityShell.Desktop.Saved
import SingularityShell.Lib.Lists
import SingularityShell.Lib.Transition

/-!
# Icons that stay where they are

An icon stands on the cell that is recorded for its name, and no two icons stand on one cell. When
the desktop is loaded anew, a file that is not recorded is given a free cell when its name comes up,
and a file that comes later does not get its recorded cell if that was the one.

## Main definitions

* `DesktopIcons.Placed`, `DesktopIcons.Still` — where the icons stand, and what an event leaves
  there
* `DesktopIcons.Spared` — the cells of the new files are not recorded for later ones
* `DesktopIcons.Careful` — the events that leave every icon in its place

## Main results

* `DesktopIcons.inv_load` — loading the desktop puts the icons on different cells
* `DesktopIcons.load_keeps` — the recorded cells that it keeps
* `DesktopIcons.icons_stay` — the runs in which every icon stays
-/

namespace SingularityShell

namespace DesktopIcons

open Ascii

variable {d : Desktop}

/-! ### Loading -/

/-- The icons that have been placed so far, under their names. -/
structure Placing (names : List Text) (placed : Table × List (Text × Cell)) : Prop where
  names : placed.2.map Prod.fst = names
  recorded : ∀ name c, placed.1.lookup name = some c ↔ (name, c) ∈ placed.2
  apart : (placed.2.map Prod.snd).Nodup
  onLattice : ∀ icon ∈ placed.2, OnLattice icon.2

/-- The cell at which the search starts for a name. -/
def startCell (d : Desktop) (old : Table) (name : Text) : Cell :=
  match old.lookup name with
  | some c => snapCell d c.1 c.2
  | none => (24, 24)

theorem startCell_onLattice (old : Table) (name : Text) : OnLattice (startCell d old name) := by
  rw [startCell]
  split
  · exact snapCell_onLattice _ _
  · exact ⟨⟨0, rfl⟩, ⟨0, rfl⟩⟩

theorem placeIcon_eq (bottom : ℤ) (old : Table) (placed : Table × List (Text × Cell))
    (name : Text) :
    placeIcon d bottom old placed name =
      (placed.1.insert name (freeCell d bottom placed.1 none (startCell d old name)),
        placed.2 ++ [(name, freeCell d bottom placed.1 none (startCell d old name))]) := rfl

theorem Placing.cellTaken_iff {names : List Text} {placed : Table × List (Text × Cell)}
    (h : Placing names placed) {c : Cell} :
    cellTaken placed.1 none c = true ↔ c ∈ placed.2.map Prod.snd := by
  rw [DesktopIcons.cellTaken_iff, List.mem_map]
  constructor
  · rintro ⟨name, -, hlookup⟩
    exact ⟨(name, c), (h.recorded name c).1 hlookup, rfl⟩
  · rintro ⟨⟨name, c⟩, hmem, rfl⟩
    exact ⟨name, by simp, (h.recorded name c).2 hmem⟩

theorem Placing.next {names : List Text} {placed : Table × List (Text × Cell)}
    (h : Placing names placed) {name : Text} (hname : name ∉ names) (bottom : ℤ) (old : Table) :
    Placing (names ++ [name]) (placeIcon d bottom old placed name) := by
  obtain ⟨hlattice, hfree, -⟩ :=
    freeCell_spec (d := d) bottom placed.1 none (startCell_onLattice old name)
  rw [placeIcon_eq]
  generalize freeCell d bottom placed.1 none (startCell d old name) = c at *
  have hnew : ∀ c', (name, c') ∉ placed.2 := by
    intro c' hmem
    rw [← h.names] at hname
    exact hname (List.mem_map_of_mem hmem)
  refine ⟨?_, ?_, ?_, ?_⟩
  · rw [List.map_append, h.names]
    rfl
  · intro name' c'
    rw [List.mem_append, List.mem_singleton, Prod.mk.injEq]
    by_cases hname' : name' = name
    · subst hname'
      rw [AList.lookup_insert, Option.some_inj, eq_comm]
      exact ⟨fun heq => Or.inr ⟨rfl, heq⟩, fun hor => (hor.resolve_left (hnew c')).2⟩
    · rw [AList.lookup_insert_ne hname', h.recorded]
      exact ⟨Or.inl, fun hor => hor.resolve_right fun heq => hname' heq.1⟩
  · rw [List.map_append, List.nodup_append]
    refine ⟨h.apart, List.nodup_singleton c, ?_⟩
    rintro c' hc' c'' hc'' rfl
    rw [List.map_singleton, List.mem_singleton] at hc''
    subst hc''
    rw [h.cellTaken_iff.2 hc'] at hfree
    cases hfree
  · intro icon hicon
    rcases List.mem_append.1 hicon with hicon | hicon
    · exact h.onLattice icon hicon
    · rw [List.mem_singleton.1 hicon]
      exact hlattice

theorem Placing.foldl {names rest : List Text} {placed : Table × List (Text × Cell)}
    (h : Placing names placed) (hnodup : (names ++ rest).Nodup) (bottom : ℤ) (old : Table) :
    Placing (names ++ rest) (rest.foldl (placeIcon d bottom old) placed) := by
  induction rest generalizing names placed with
  | nil => rwa [List.append_nil]
  | cons name rest ih =>
    have hname : name ∉ names := fun hmem =>
      (List.nodup_append.1 hnodup).2.2 name hmem name List.mem_cons_self rfl
    have happend : names ++ name :: rest = names ++ [name] ++ rest := by simp
    rw [happend] at hnodup ⊢
    exact ih (h.next hname bottom old) hnodup

theorem Placing.nil : Placing [] (∅, []) where
  names := rfl
  recorded name c := by simp
  apart := List.nodup_nil
  onLattice icon hicon := by cases hicon

/-! ### The state -/

structure Inv (d : Desktop) (s : State) : Prop where
  files : s.files.Nodup
  named : ∀ name ∈ s.files, d.display name = name
  names : (s.icons.map Prod.fst).Nodup
  visible : ∀ icon ∈ s.icons, hidden icon.1 = false
  recorded : ∀ icon ∈ s.icons, s.positions.lookup icon.1 = some icon.2
  apart : ∀ name name' c, s.positions.lookup name = some c → s.positions.lookup name' = some c →
    name = name'
  onLattice : ∀ name c, s.positions.lookup name = some c → OnLattice c

/-- The names in the order in which they are placed. -/
def sorted (d : Desktop) (files : List Text) : List Text :=
  (shown d files).insertionSort (· ≤ ·)

theorem mem_sorted {files : List Text} (hnamed : ∀ name ∈ files, d.display name = name)
    {name : Text} : name ∈ sorted d files ↔ name ∈ files ∧ hidden name = false := by
  rw [sorted, List.mem_insertionSort, shown, List.map_congr_left hnamed, List.map_id',
    List.mem_filter, Bool.not_eq_true']

theorem nodup_sorted {files : List Text} (hnodup : files.Nodup)
    (hnamed : ∀ name ∈ files, d.display name = name) : (sorted d files).Nodup := by
  rw [sorted, (List.perm_insertionSort _ _).nodup_iff, shown, List.map_congr_left hnamed,
    List.map_id']
  exact hnodup.filter _

theorem placing_load {s : State} (hnodup : s.files.Nodup)
    (hnamed : ∀ name ∈ s.files, d.display name = name) : Placing (sorted d s.files)
      ((loadDesktopIcons d s).positions, (loadDesktopIcons d s).icons) :=
  Placing.nil.foldl (nodup_sorted hnodup hnamed) s.bottom s.positions

/-- **Loading the desktop** puts the icons on different cells, whatever was recorded. -/
theorem inv_load {s : State} (hnodup : s.files.Nodup)
    (hnamed : ∀ name ∈ s.files, d.display name = name) : Inv d (loadDesktopIcons d s) := by
  have h := placing_load (d := d) hnodup hnamed
  refine
    { files := hnodup
      named := hnamed
      names := ?_
      visible := ?_
      recorded := fun icon hicon => (h.recorded icon.1 icon.2).2 hicon
      apart := ?_
      onLattice := fun name c hlookup => h.onLattice _ ((h.recorded name c).1 hlookup) }
  · rw [h.names]
    exact nodup_sorted hnodup hnamed
  · intro icon hicon
    have hmem : icon.1 ∈ sorted d s.files := by
      rw [← h.names]
      exact List.mem_map_of_mem hicon
    exact ((mem_sorted hnamed).1 hmem).2
  · intro name name' c hlookup hlookup'
    have heq := List.inj_on_of_nodup_map h.apart ((h.recorded name c).1 hlookup)
      ((h.recorded name' c).1 hlookup') rfl
    exact congrArg Prod.fst heq

/-! ### What loading keeps -/

/-- Where the library puts a new file, next to some cells. -/
def newCell (d : Desktop) (bottom : ℤ) (taken : List Cell) : Cell :=
  d.grid.findFreeCell (24, 24) 24 100 bottom fun c => decide (c ∈ taken)

/-- The names come one after the other. A name that is not recorded is given a free cell, next to
the cells of the names before it, and that cell is not recorded for a name after it. -/
def Spared (d : Desktop) (bottom : ℤ) (old : Table) : List Cell → List Text → Prop
  | _, [] => True
  | taken, name :: names =>
    match old.lookup name with
    | some c => Spared d bottom old (taken ++ [c]) names
    | none => (∀ name' ∈ names, old.lookup name' ≠ some (newCell d bottom taken)) ∧
        Spared d bottom old (taken ++ [newCell d bottom taken]) names

/-- The recorded cells of the names are on the lattice, and different ones. -/
structure Recorded (old : Table) (names : List Text) : Prop where
  onLattice : ∀ name ∈ names, ∀ c, old.lookup name = some c → OnLattice c
  apart : ∀ name ∈ names, ∀ name' ∈ names, ∀ c, old.lookup name = some c →
    old.lookup name' = some c → name = name'

theorem mem_foldl_placeIcon {bottom : ℤ} {old : Table} {icon : Text × Cell} (names : List Text)
    {placed : Table × List (Text × Cell)} (h : icon ∈ placed.2) :
    icon ∈ (names.foldl (placeIcon d bottom old) placed).2 := by
  induction names generalizing placed with
  | nil => exact h
  | cons name names ih => exact ih (List.mem_append_left _ h)

/-- The step of the loop: a recorded cell is kept, and a new file is put on the next free cell. -/
theorem Placing.freeCell_eq {names : List Text} {placed : Table × List (Text × Cell)}
    (h : Placing names placed) (old : Table) (name : Text) (bottom : ℤ) :
    (∀ c, old.lookup name = some c → OnLattice c → c ∉ placed.2.map Prod.snd →
      freeCell d bottom placed.1 none (startCell d old name) = c) ∧
    (old.lookup name = none → freeCell d bottom placed.1 none (startCell d old name) =
      newCell d bottom (placed.2.map Prod.snd)) := by
  constructor
  · intro c hlookup hlattice hfree
    have hstart : startCell d old name = c := by
      rw [startCell, hlookup]
      exact snapCell_self hlattice
    rw [hstart]
    refine (freeCell_spec bottom placed.1 none hlattice).2.2 ?_
    rw [← Bool.not_eq_true, h.cellTaken_iff]
    exact hfree
  · intro hlookup
    have htaken : cellTaken placed.1 none = fun c => decide (c ∈ placed.2.map Prod.snd) := by
      funext c
      rw [Bool.eq_iff_iff, h.cellTaken_iff, decide_eq_true_eq]
    rw [startCell, hlookup, freeCell, htaken]
    rfl

theorem Placing.keeps {names rest : List Text} {placed : Table × List (Text × Cell)}
    (h : Placing names placed) (hnodup : (names ++ rest).Nodup) {bottom : ℤ} {old : Table}
    (hold : Recorded old rest)
    (hfree : ∀ name ∈ rest, ∀ c, old.lookup name = some c → c ∉ placed.2.map Prod.snd)
    (hspared : Spared d bottom old (placed.2.map Prod.snd) rest) :
    ∀ name ∈ rest, ∀ c, old.lookup name = some c →
      (name, c) ∈ (rest.foldl (placeIcon d bottom old) placed).2 := by
  induction rest generalizing names placed with
  | nil => simp
  | cons first rest ih =>
    have hfirst : first ∉ names := fun hmem =>
      (List.nodup_append.1 hnodup).2.2 first hmem first List.mem_cons_self rfl
    have hrest : first ∉ rest := (List.nodup_cons.1 (List.nodup_append.1 hnodup).2.1).1
    have hnext := h.next (d := d) hfirst bottom old
    have happend : names ++ first :: rest = names ++ [first] ++ rest := by simp
    rw [happend] at hnodup
    have hold' : Recorded old rest :=
      ⟨fun name hname => hold.onLattice name (List.mem_cons_of_mem _ hname), fun name hname name'
        hname' => hold.apart name (List.mem_cons_of_mem _ hname) name'
          (List.mem_cons_of_mem _ hname')⟩
    obtain ⟨hkeep, hnew⟩ := h.freeCell_eq (d := d) old first bottom
    rw [Spared] at hspared
    cases hlookup : old.lookup first with
    | some c =>
      rw [hlookup] at hspared
      have hcell := hkeep c hlookup (hold.onLattice first List.mem_cons_self c hlookup)
        (hfree first List.mem_cons_self c hlookup)
      have hplaced : (placeIcon d bottom old placed first).2 = placed.2 ++ [(first, c)] := by
        rw [placeIcon_eq, hcell]
      have hafter := ih hnext hnodup hold' (by
        intro name hname c' hlookup' hmem
        rw [hplaced, List.map_append, List.mem_append, List.map_singleton,
          List.mem_singleton] at hmem
        rcases hmem with hmem | rfl
        · exact hfree name (List.mem_cons_of_mem _ hname) c' hlookup' hmem
        · have := hold.apart name (List.mem_cons_of_mem _ hname) first List.mem_cons_self _ hlookup'
            hlookup
          exact hrest (this ▸ hname)) (by rw [hplaced, List.map_append]; exact hspared)
      rintro name (_ | ⟨_, hname⟩) c' hlookup'
      · obtain rfl : c = c' := Option.some.inj (hlookup.symm.trans hlookup')
        exact mem_foldl_placeIcon rest (by rw [hplaced]; simp)
      · exact hafter name hname c' hlookup'
    | none =>
      rw [hlookup] at hspared
      obtain ⟨hothers, hspared⟩ := hspared
      have hplaced : (placeIcon d bottom old placed first).2 =
          placed.2 ++ [(first, newCell d bottom (placed.2.map Prod.snd))] := by
        rw [placeIcon_eq, hnew hlookup]
      have hafter := ih hnext hnodup hold' (by
        intro name hname c' hlookup' hmem
        rw [hplaced, List.map_append, List.mem_append, List.map_singleton,
          List.mem_singleton] at hmem
        rcases hmem with hmem | rfl
        · exact hfree name (List.mem_cons_of_mem _ hname) c' hlookup' hmem
        · exact hothers name hname hlookup') (by rw [hplaced, List.map_append]; exact hspared)
      rintro name (_ | ⟨_, hname⟩) c' hlookup'
      · rw [hlookup] at hlookup'
        cases hlookup'
      · exact hafter name hname c' hlookup'

/-- **What loading keeps**: every recorded cell, where the new files spare it. -/
theorem load_keeps {s : State} (hnodup : s.files.Nodup)
    (hnamed : ∀ name ∈ s.files, d.display name = name)
    (hold : Recorded s.positions (sorted d s.files))
    (hspared : Spared d s.bottom s.positions [] (sorted d s.files)) {name : Text}
    (hname : name ∈ sorted d s.files) {c : Cell} (hlookup : s.positions.lookup name = some c) :
    (name, c) ∈ (loadDesktopIcons d s).icons :=
  Placing.nil.keeps (nodup_sorted hnodup hnamed) hold (fun _ _ _ _ hmem => by cases hmem) hspared
    name hname c hlookup

theorem Spared.congr {bottom : ℤ} {old old' : Table}
    (hlookup : ∀ name, old'.lookup name = old.lookup name) {taken : List Cell} {names : List Text}
    (h : Spared d bottom old taken names) : Spared d bottom old' taken names := by
  induction names generalizing taken with
  | nil => trivial
  | cons name names ih =>
    rw [Spared] at h ⊢
    rw [hlookup]
    split at h
    · exact ih h
    · exact ⟨fun name' hname' => by rw [hlookup]; exact h.1 name' hname', ih h.2⟩

/-! ### Where the icons stand -/

/-- The icons stand on different cells of the lattice, those that are recorded. -/
structure Placed (s : State) : Prop where
  apart : (s.icons.map Prod.snd).Nodup
  recorded : ∀ icon ∈ s.icons, OnLattice icon.2 ∧ s.positions.lookup icon.1 = some icon.2

/-- A file event moves no other icon, and loading the desktop moves none of a file that is there. -/
def Still (s : State) (e : Event) (s' : State) : Prop :=
  match e with
  | .changed name | .deleted name =>
    ∀ icon : Text × Cell, icon.1 ≠ name → (icon ∈ s'.icons ↔ icon ∈ s.icons)
  | .refresh | .restart _ => ∀ icon ∈ s.icons, icon.1 ∈ s.files → icon ∈ s'.icons
  | _ => True

/-- The table is gone through in some order, and its coordinates are an `int`. -/
def May (s : State) : Event → Prop
  | .sortByName order | .arrangeToGrid order => order.Perm s.positions.keys
  | .restart order => order.Perm s.positions.keys ∧
      ∀ name c, s.positions.lookup name = some c → IsCell c
  | _ => True

/-- The names are displayed as they are, new files spare the recorded cells when the desktop is
loaded, and the recorded names are plain when the shell is started again. -/
def Careful (d : Desktop) (s : State) (e : Event) : Prop :=
  May s e ∧
  match e with
  | .appear name => d.display name = name
  | .refresh => Spared d s.bottom s.positions [] (sorted d s.files)
  | .restart _ => (∀ name ∈ s.positions, Plain name) ∧
      Spared d s.bottom s.positions [] (sorted d s.files)
  | _ => True

theorem Inv.placed {s : State} (h : Inv d s) : Placed s where
  apart := by
    rw [List.nodup_map_iff_inj_on (List.Nodup.of_map Prod.fst h.names)]
    intro icon hicon icon' hicon' heq
    refine Prod.ext (h.apart _ _ icon.2 (h.recorded icon hicon) ?_) heq
    rw [heq]
    exact h.recorded icon' hicon'
  recorded icon hicon := ⟨h.onLattice _ _ (h.recorded icon hicon), h.recorded icon hicon⟩

theorem Inv.recorded_sorted {s : State} (h : Inv d s) :
    Recorded s.positions (sorted d s.files) :=
  ⟨fun name _ => h.onLattice name, fun name _ name' _ => h.apart name name'⟩

/-! ### Single icons -/

theorem mem_moveIcon {name : Text} {c : Cell} {icons : List (Text × Cell)}
    (h : (icons.map Prod.fst).Nodup) {icon : Text × Cell} (hicon : icon ∈ moveIcon name c icons) :
    icon = (name, c) ∨ icon ∈ icons ∧ icon.1 ≠ name := by
  induction icons with
  | nil => cases hicon
  | cons first icons ih =>
    obtain ⟨hfirst, hrest⟩ := List.nodup_cons.1 h
    rw [moveIcon] at hicon
    split_ifs at hicon with hname
    · rcases List.mem_cons.1 hicon with rfl | hicon
      · exact Or.inl rfl
      · refine Or.inr ⟨List.mem_cons_of_mem _ hicon, fun heq => hfirst ?_⟩
        rw [hname, ← heq]
        exact List.mem_map_of_mem hicon
    · rcases List.mem_cons.1 hicon with rfl | hicon
      · exact Or.inr ⟨List.mem_cons_self, hname⟩
      · exact (ih hrest hicon).imp_right fun h => ⟨List.mem_cons_of_mem _ h.1, h.2⟩

theorem map_moveIcon (name : Text) (c : Cell) (icons : List (Text × Cell)) :
    (moveIcon name c icons).map Prod.fst = icons.map Prod.fst := by
  induction icons with
  | nil => rfl
  | cons first icons ih =>
    rw [moveIcon]
    split_ifs with hname
    · rw [List.map_cons, List.map_cons, hname]
    · rw [List.map_cons, List.map_cons, ih]

/-- Recording a free cell for a name keeps the recorded cells apart. -/
theorem Inv.insert {s : State} (h : Inv d s) {name : Text} {c : Cell} {exclude : Option Text}
    (hexclude : ∀ name', some name' = exclude → name' = name) (hc : OnLattice c)
    (hfree : cellTaken s.positions exclude c = false) :
    (∀ name₁ name₂ c', (s.positions.insert name c).lookup name₁ = some c' →
      (s.positions.insert name c).lookup name₂ = some c' → name₁ = name₂) ∧
    ∀ name' c', (s.positions.insert name c).lookup name' = some c' → OnLattice c' := by
  have hother : ∀ name', name' ≠ name → s.positions.lookup name' ≠ some c := by
    intro name' hne hlookup
    rw [← Bool.not_eq_true, cellTaken_iff] at hfree
    exact hfree ⟨name', fun heq => hne (hexclude name' heq), hlookup⟩
  constructor
  · intro name₁ name₂ c' h₁ h₂
    by_cases hname₁ : name₁ = name
    · by_cases hname₂ : name₂ = name
      · rw [hname₁, hname₂]
      · rw [hname₁, AList.lookup_insert] at h₁
        rw [AList.lookup_insert_ne hname₂] at h₂
        exact absurd (h₂.trans h₁.symm) (hother name₂ hname₂)
    · rw [AList.lookup_insert_ne hname₁] at h₁
      by_cases hname₂ : name₂ = name
      · rw [hname₂, AList.lookup_insert] at h₂
        exact absurd (h₁.trans h₂.symm) (hother name₁ hname₁)
      · rw [AList.lookup_insert_ne hname₂] at h₂
        exact h.apart name₁ name₂ c' h₁ h₂
  · intro name' c' hlookup
    by_cases hname : name' = name
    · rw [hname, AList.lookup_insert] at hlookup
      exact Option.some.inj hlookup ▸ hc
    · rw [AList.lookup_insert_ne hname] at hlookup
      exact h.onLattice name' c' hlookup

theorem Inv.drop {s : State} (h : Inv d s) (filename : Text) (x y : ℚ) :
    Inv d (drop d filename x y s) := by
  obtain ⟨hlattice, hfree, -⟩ := freeCell_spec (d := d) s.bottom s.positions (some filename)
    (snapCell_onLattice (d := d) x y)
  rw [DesktopIcons.drop]
  generalize freeCell d s.bottom s.positions (some filename) (snapCell d x y) = c at *
  split_ifs with hshown
  · obtain ⟨happart, honLattice⟩ :=
      h.insert (fun name' heq => Option.some.inj heq) hlattice hfree
    refine
      { files := h.files
        named := h.named
        names := by
          rw [map_moveIcon]
          exact h.names
        visible := ?_
        recorded := ?_
        apart := happart
        onLattice := honLattice }
    · intro icon hicon
      rcases mem_moveIcon h.names hicon with rfl | ⟨hicon, -⟩
      · obtain ⟨old, hold, hname⟩ := List.mem_map.1 hshown
        rw [← hname]
        exact h.visible old hold
      · exact h.visible icon hicon
    · intro icon hicon
      rcases mem_moveIcon h.names hicon with rfl | ⟨hicon, hne⟩
      · exact AList.lookup_insert _
      · exact (AList.lookup_insert_ne hne).trans (h.recorded icon hicon)
  · exact h

/-- The icons that are left when the one of a name is removed. -/
theorem Inv.mem_erase {s : State} (h : Inv d s) {name : Text} {icon : Text × Cell} :
    icon ∈ (s.icons.eraseP fun icon => icon.1 = name) ↔ icon ∈ s.icons ∧ icon.1 ≠ name := by
  rw [Lists.eraseP_eq_filter Prod.fst h.names, List.mem_filter, decide_eq_true_eq]

/-- What is recorded after a name was forgotten was recorded before. -/
theorem lookup_of_erase {t : Table} {name name' : Text} {c : Cell}
    (h : (t.erase name).lookup name' = some c) : t.lookup name' = some c := by
  by_cases hname : name' = name
  · rw [hname, AList.lookup_erase] at h
    cases h
  · rwa [AList.lookup_erase_ne hname] at h

theorem Inv.removeSingleIcon {s : State} (h : Inv d s) (name : Text) :
    Inv d (removeSingleIcon name s) where
  files := h.files
  named := h.named
  names := h.names.sublist (List.eraseP_sublist.map _)
  visible icon hicon := h.visible icon (h.mem_erase.1 hicon).1
  recorded icon hicon := by
    obtain ⟨hicon, hne⟩ := h.mem_erase.1 hicon
    exact (AList.lookup_erase_ne hne).trans (h.recorded icon hicon)
  apart name₁ name₂ c h₁ h₂ := h.apart name₁ name₂ c (lookup_of_erase h₁) (lookup_of_erase h₂)
  onLattice name' c hlookup := h.onLattice name' c (lookup_of_erase hlookup)

/-- The icon of a file is put on a cell that is recorded for it. -/
theorem Inv.putIcon {s : State} (h : Inv d s) {name : Text} (hvisible : hidden name = false)
    {c : Cell} {positions : Table} (hself : positions.lookup name = some c)
    (hother : ∀ name', name' ≠ name → positions.lookup name' = s.positions.lookup name')
    (hpositions : (∀ name₁ name₂ c', positions.lookup name₁ = some c' →
      positions.lookup name₂ = some c' → name₁ = name₂) ∧
        ∀ name' c', positions.lookup name' = some c' → OnLattice c') :
    Inv d { s with
      icons := (s.icons.eraseP fun icon => icon.1 = name) ++ [(name, c)]
      positions } where
  files := h.files
  named := h.named
  names := by
    rw [List.map_append, List.nodup_append]
    refine ⟨h.names.sublist (List.eraseP_sublist.map _), List.nodup_singleton name, ?_⟩
    rintro name' hname' name'' hname'' rfl
    obtain ⟨icon, hicon, rfl⟩ := List.mem_map.1 hname'
    rw [List.map_singleton, List.mem_singleton] at hname''
    exact (h.mem_erase.1 hicon).2 hname''
  visible icon hicon := by
    rcases List.mem_append.1 hicon with hicon | hicon
    · exact h.visible icon (h.mem_erase.1 hicon).1
    · rw [List.mem_singleton.1 hicon]
      exact hvisible
  recorded icon hicon := by
    rcases List.mem_append.1 hicon with hicon | hicon
    · obtain ⟨hicon, hne⟩ := h.mem_erase.1 hicon
      exact (hother _ hne).trans (h.recorded icon hicon)
    · rw [List.mem_singleton.1 hicon]
      exact hself
  apart := hpositions.1
  onLattice := hpositions.2

theorem updateSingleIcon_spec {s : State} (h : Inv d s) (name : Text) :
    Inv d (updateSingleIcon d name s) ∧ ∀ icon : Text × Cell, icon.1 ≠ name →
      (icon ∈ (updateSingleIcon d name s).icons ↔ icon ∈ s.icons) := by
  have hothers : ∀ (c : Cell) (icon : Text × Cell), icon.1 ≠ name →
      (icon ∈ (s.icons.eraseP fun icon => icon.1 = name) ++ [(name, c)] ↔ icon ∈ s.icons) := by
    intro c icon hne
    rw [List.mem_append, h.mem_erase, List.mem_singleton]
    refine ⟨fun hor => ?_, fun hicon => Or.inl ⟨hicon, hne⟩⟩
    rcases hor with hicon | rfl
    · exact hicon.1
    · exact absurd rfl hne
  rw [updateSingleIcon]
  split_ifs with hhidden hfile
  · exact ⟨h, fun icon _ => Iff.rfl⟩
  · have hname : d.display name = name := h.named name hfile
    have hvisible : hidden name = false := by simpa using hhidden
    rw [hname]
    cases hlookup : s.positions.lookup name with
    | some c =>
      dsimp only
      rw [snapCell_self (h.onLattice name c hlookup)]
      exact ⟨h.putIcon hvisible hlookup (fun _ _ => rfl) ⟨h.apart, h.onLattice⟩, hothers c⟩
    | none =>
      have hstart : OnLattice (24, 24) := ⟨⟨0, rfl⟩, ⟨0, rfl⟩⟩
      obtain ⟨hlattice, hfree, -⟩ := freeCell_spec (d := d) s.bottom s.positions none hstart
      dsimp only
      generalize freeCell d s.bottom s.positions none (24, 24) = c at *
      exact ⟨h.putIcon hvisible (AList.lookup_insert _) (fun _ hne => AList.lookup_insert_ne hne)
        (h.insert (fun _ heq => by cases heq) hlattice hfree), hothers c⟩
  · refine ⟨h.removeSingleIcon name, fun icon hne => ?_⟩
    exact h.mem_erase.trans (and_iff_left hne)

/-! ### Runs -/

/-- **The step lemma.** -/
theorem inv_step {s : State} {e : Event} (h : Inv d s) (hcareful : Careful d s e) :
    Inv d (step d s e) ∧ Still s e (step d s e) := by
  obtain ⟨hmay, hcareful⟩ := hcareful
  cases e with
  | appear name =>
    refine ⟨?_, trivial⟩
    rw [step]
    by_cases hname : name ∈ s.files
    · rw [if_pos hname]
      exact h
    · rw [if_neg hname]
      refine ⟨?_, ?_, h.names, h.visible, h.recorded, h.apart, h.onLattice⟩
      · exact List.nodup_append.2 ⟨h.files, List.nodup_singleton name, fun name' hname' name''
          hname'' heq => hname (by rwa [← List.mem_singleton.1 hname'', ← heq])⟩
      · intro name' hname'
        rcases List.mem_append.1 hname' with hname' | hname'
        · exact h.named name' hname'
        · rw [List.mem_singleton.1 hname']
          exact hcareful
  | vanish name =>
    refine ⟨⟨h.files.erase name, fun name' hname' => ?_, h.names, h.visible, h.recorded, h.apart,
      h.onLattice⟩, trivial⟩
    exact h.named name' (List.mem_of_mem_erase hname')
  | changed name => exact updateSingleIcon_spec h name
  | deleted name =>
    rw [step, Still]
    split_ifs
    · exact ⟨h, fun icon _ => Iff.rfl⟩
    · exact ⟨h.removeSingleIcon name, fun icon hne => h.mem_erase.trans (and_iff_left hne)⟩
  | drop filename x y => exact ⟨h.drop filename x y, trivial⟩
  | sortByName order => exact ⟨inv_load h.files h.named, trivial⟩
  | sortByType => exact ⟨inv_load h.files h.named, trivial⟩
  | arrangeToGrid order => exact ⟨inv_load h.files h.named, trivial⟩
  | refresh =>
    refine ⟨inv_load h.files h.named, fun icon hicon hfile => ?_⟩
    exact load_keeps h.files h.named h.recorded_sorted hcareful
      ((mem_sorted h.named).2 ⟨hfile, h.visible icon hicon⟩) (h.recorded icon hicon)
  | restart order =>
    obtain ⟨hperm, hcell⟩ := hmay
    obtain ⟨hplain, hspared⟩ := hcareful
    have hkeys : ∀ name, name ∈ order ↔ name ∈ s.positions := fun name => by
      rw [hperm.mem_iff, AList.mem_keys]
    have hlookup := lookup_loadPositions hkeys hplain hcell
    refine ⟨inv_load h.files h.named, fun icon hicon hfile => ?_⟩
    refine load_keeps (s := { s with
        positions := loadPositions (savePositions order s.positions)
        icons := [] }) h.files h.named ?_ (hspared.congr hlookup)
      ((mem_sorted h.named).2 ⟨hfile, h.visible icon hicon⟩)
      ((hlookup icon.1).trans (h.recorded icon hicon))
    constructor
    · intro name _ c hc
      exact h.onLattice name c ((hlookup name).symm.trans hc)
    · intro name _ name' _ c hc hc'
      exact h.apart name name' c ((hlookup name).symm.trans hc) ((hlookup name').symm.trans hc')
  | resize bottom =>
    exact ⟨⟨h.files, h.named, h.names, h.visible, h.recorded, h.apart, h.onLattice⟩, trivial⟩

/-- **Every icon stays.** In a run whose events are careful, the icons stand on different cells of
the lattice, those that are recorded, no file event moves the icon of another file, and loading the
desktop, also when the shell is started again, moves no icon of a file that is there. -/
theorem icons_stay (d : Desktop) (files : List Text) (positions : Table) (bottom : ℤ)
    (hnodup : files.Nodup) (hnamed : ∀ name ∈ files, d.display name = name) (events : List Event)
    (h : Transition.Guarded (step d) (Careful d) (start d files positions bottom) events) :
    (∀ events', events' <+: events →
      Placed (Transition.run (step d) (start d files positions bottom) events')) ∧
    ∀ before e after, events = before ++ e :: after →
      Still (Transition.run (step d) (start d files positions bottom) before) e
        (Transition.run (step d) (start d files positions bottom) (before ++ [e])) := by
  have hinv : ∀ before after, events = before ++ after →
      Inv d (Transition.run (step d) (start d files positions bottom) before) := by
    rintro before after rfl
    exact Transition.Guarded.invariant (P := Inv d) (fun s e hs he => (inv_step hs he).1)
      (inv_load hnodup hnamed) ((Transition.guarded_append _ _ _).1 h).1
  constructor
  · rintro before ⟨after, heq⟩
    exact (hinv before after heq.symm).placed
  · rintro before e after heq
    have hs := hinv before (e :: after) heq
    rw [heq, Transition.guarded_append] at h
    rw [Transition.run_append]
    exact (inv_step hs h.2.1).2

/-! ### A new file that comes first -/

/-- Cells below each other are free from some place on. -/
theorem exists_free (c : Cell) {taken : Cell → Bool} (h : Set.Finite {c | taken c = true}) :
    ∃ k : ℕ, taken (c.1, c.2 + 100 * k) = false := by
  by_contra! hall
  refine Set.infinite_of_injective_forall_mem (f := fun k : ℕ => (c.1, c.2 + 100 * (k : ℤ)))
    ?_ (fun k => by simpa using hall k) h
  intro k k' heq
  have := congrArg Prod.snd heq
  dsimp only at this
  omega

open Classical in
/-- A lattice whose columns have no end. -/
noncomputable def columns : GridLayout where
  snap v origin pitch := origin + pitch * ⌊(v - origin) / pitch + 1 / 2⌋
  findFreeCell c _ pitch _ taken :=
    if h : ∃ k : ℕ, taken (c.1, c.2 + pitch * k) = false then (c.1, c.2 + pitch * (Nat.find h : ℕ))
    else c
  snap_onGrid v := ⟨⌊(v - (24 : ℤ)) / (100 : ℤ) + 1 / 2⌋, by omega⟩
  snap_self v h := by
    obtain ⟨k, hk⟩ := h
    obtain rfl : v = 24 + 100 * k := by omega
    have : ((24 + 100 * k : ℤ) - (24 : ℤ) : ℚ) / (100 : ℤ) + 1 / 2 = k + 1 / 2 := by
      push_cast
      ring
    rw [this, Int.floor_intCast_add]
    norm_num
  find_onLattice c bottom taken h := by
    obtain ⟨k, hk⟩ := h.2
    split_ifs with hfree
    · exact ⟨h.1, ⟨k + (Nat.find hfree : ℕ), by dsimp only; omega⟩⟩
    · exact h
  find_free c bottom taken _ hfinite := by
    rw [dif_pos (exists_free c hfinite)]
    exact Nat.find_spec (exists_free c hfinite)
  find_self c bottom taken _ hfree := by
    have hzero : taken (c.1, c.2 + 100 * (0 : ℕ)) = false := by simpa using hfree
    rw [dif_pos ⟨0, hzero⟩, (Nat.find_eq_zero ⟨0, hzero⟩).2 hzero]
    simp

/-- A desktop whose names are displayed as they are. -/
noncomputable def columnDesktop : Desktop where
  display name := name
  down name := name
  kind _ := (false, [])
  grid := columns

def first : Text := ofString "a"

def second : Text := ofString "b"

/-- The file `a` is created where `b` is recorded at the origin, and the desktop is loaded before
the monitor tells of it. -/
def newcomer : List Event := [.appear first, .refresh]

theorem freeCell_empty (bottom : ℤ) :
    freeCell columnDesktop bottom ∅ none (24, 24) = (24, 24) :=
  (freeCell_spec bottom ∅ none ⟨⟨0, rfl⟩, ⟨0, rfl⟩⟩).2.2 rfl

theorem sorted_both : sorted columnDesktop [second, first] = [first, second] := by
  decide +kernel

/-- The icon of `b` is moved. -/
theorem not_still_newcomer :
    ¬Still (Transition.run (step columnDesktop) (start columnDesktop [second] ∅ 900)
        [.appear first]) .refresh
      (Transition.run (step columnDesktop) (start columnDesktop [second] ∅ 900) newcomer) := by
  intro hstill
  have hbefore : (start columnDesktop [second] ∅ 900).icons = [(second, (24, 24))] := by
    show [(second, freeCell columnDesktop 900 ∅ none (24, 24))] = _
    rw [freeCell_empty]
  have hold := hstill (second, (24, 24)) (by
    show _ ∈ (start columnDesktop [second] ∅ 900).icons
    rw [hbefore]
    exact List.mem_cons_self) (by decide)
  -- `a` comes first, and `b` would have to stand on the same cell
  let s : State := { start columnDesktop [second] ∅ 900 with files := [second, first] }
  have hnew : (first, ((24, 24) : Cell)) ∈ (loadDesktopIcons columnDesktop s).icons := by
    have hplaced : (loadDesktopIcons columnDesktop s).icons = ([second].foldl
        (placeIcon columnDesktop 900 s.positions)
          (placeIcon columnDesktop 900 s.positions (∅, []) first)).2 := by
      show (List.foldl (placeIcon columnDesktop 900 s.positions)
        ((∅ : Table), ([] : List (Text × Cell))) (sorted columnDesktop [second, first])).2 = _
      rw [sorted_both]
      rfl
    have hstart : startCell columnDesktop s.positions first = (24, 24) := rfl
    rw [hplaced]
    refine mem_foldl_placeIcon [second] ?_
    rw [placeIcon_eq, hstart, freeCell_empty]
    exact List.mem_cons_self
  have hapart := (inv_load (d := columnDesktop) (s := s) (by decide) fun _ _ => rfl).placed.apart
  exact absurd (List.inj_on_of_nodup_map hapart hnew hold rfl) (by decide)

theorem sorted_latecomer : sorted columnDesktop [first, second] = [first, second] := by
  decide +kernel

theorem spared_latecomer {bottom : ℤ} {old : Table} {c : Cell} (hfirst : old.lookup first = some c)
    (hsecond : old.lookup second = none) :
    Spared columnDesktop bottom old [] [first, second] := by
  rw [Spared, hfirst]
  dsimp only
  rw [Spared, hsecond]
  exact ⟨by simp, trivial⟩

/-- A file that comes after the recorded ones leaves them where they are. -/
theorem icons_stay_latecomer :
    Placed (Transition.run (step columnDesktop) (start columnDesktop [first] ∅ 900)
      [.appear second, .refresh]) := by
  refine (icons_stay columnDesktop [first] ∅ 900 (by decide) (fun _ _ => rfl)
    [.appear second, .refresh] ⟨⟨trivial, rfl⟩, ⟨trivial, ?_⟩, trivial⟩).1 _ (List.prefix_refl _)
  have hfiles : (step columnDesktop (start columnDesktop [first] ∅ 900) (.appear second)).files =
      [first, second] := by
    decide +kernel
  have hpositions : (start columnDesktop [first] ∅ 900).positions =
      (∅ : Table).insert first (freeCell columnDesktop 900 ∅ none (24, 24)) := rfl
  show Spared columnDesktop 900 (start columnDesktop [first] ∅ 900).positions []
    (sorted columnDesktop
      (step columnDesktop (start columnDesktop [first] ∅ 900) (.appear second)).files)
  rw [hfiles, sorted_latecomer, hpositions]
  refine spared_latecomer (AList.lookup_insert _) ?_
  rw [AList.lookup_insert_ne (by decide)]
  rfl

end DesktopIcons

end SingularityShell
