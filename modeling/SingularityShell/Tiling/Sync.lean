import Mathlib.Tactic.Ring
import SingularityShell.Lib.Lists
import SingularityShell.Tiling.Group

/-!
# Following the windows

What `sync_group` does to a group whose columns partition its windows: who stays stays where it is,
who is new gets a column beside its anchor, and the strip does not jump.

## Main definitions

* `Tiling.Partitioned` — columns that partition the windows
* `Tiling.remaining` — the columns that are left, with the windows that are
* `Tiling.Admits` — new windows are put in, one after the other
* `Tiling.Synced` — what is meant

## Main results

* `Tiling.foldl_dropStale` — the windows that are gone
* `Tiling.grown_foldl_adopt` — the windows that are new
* `Tiling.x_restore` — the window that stays in its place
* `Tiling.synced_syncGroup` — the group after the windows have changed
-/

namespace SingularityShell

namespace Tiling

open Binary64 Machine Rounding

/-- A column by its identity and its windows. -/
abbrev Placing := ℕ × List Window

def placing (columns : List Column) : List Placing := columns.map fun c => (c.id, c.windows)

def windows (manager : Manager) : List Window := manager.group.columns.flatMap (·.windows)

/-- The columns partition the windows, and no column is made twice. -/
structure Partitioned (manager : Manager) : Prop where
  windows : (windows manager).Nodup
  ids : (manager.group.columns.map (·.id)).Nodup
  fresh : ∀ column ∈ manager.group.columns, column.id < manager.nextColumn

/-- The columns that are left, with the windows that are. -/
def remaining (manager : Manager) (candidates : List Window) : List Placing :=
  ((placing manager.group.columns).map fun p => (p.1, p.2.filter (· ∈ candidates))).filter
    fun p => p.2 ≠ []

/-- A column is put directly after the one that the anchor is in, or at the end when the anchor is
in none. -/
def Places (anchor : Option Window) (own : Placing) (before after : List Placing) : Prop :=
  (∃ win left column right, anchor = some win ∧ win ∈ column.2 ∧
      before = left ++ column :: right ∧ after = left ++ column :: own :: right) ∨
    (∀ win, anchor = some win → ∀ column ∈ before, win ∉ column.2) ∧ after = before ++ [own]

/-- New windows get columns of their own, one after the other. -/
inductive Admits (anchors : Window → Option Window) :
    List Window → List Placing → List Placing → Prop where
  | nil (columns : List Placing) : Admits anchors [] columns columns
  | cons {win wins id before between after} (hnew : ∀ column ∈ before, column.1 ≠ id)
      (hplace : Places (anchors win) (id, [win]) before between)
      (hrest : Admits anchors wins between after) : Admits anchors (win :: wins) before after

/-- The window whose place is kept: the focused one when it is a candidate, and else the first of
the group that is. -/
def IsAnchor (manager : Manager) (candidates : List Window) (win : Window) : Prop :=
  (manager.group.focused = some win ∧ win ∈ candidates) ∨
    (∀ focused, manager.group.focused = some focused → focused ∉ candidates) ∧
      (windows manager).find? (· ∈ candidates) = some win

/-- What is meant. -/
structure Synced (env : Env) (candidates : List Window) (manager manager' : Manager) : Prop where
  partitioned : Partitioned manager'
  members : ∀ win, win ∈ windows manager' ↔ win ∈ candidates
  kept : (placing manager'.group.columns).filter (fun p => p.1 < manager.nextColumn) =
    remaining manager candidates
  admitted : Admits manager.insertionAnchors (candidates.filter (· ∉ windows manager))
    (remaining manager candidates) (placing manager'.group.columns)
  area : manager'.group.area = manager.group.area
  hasAnchor : (∃ win ∈ windows manager, win ∈ candidates) → ∃ win, IsAnchor manager candidates win
  anchored : ∀ win ∈ windows manager, IsAnchor manager candidates win →
    ∃ rect rect', rectForWindow env manager.group win = some rect ∧
      rectForWindow env manager'.group win = some rect' ∧ rect'.x = rect.x
  removed : ∀ win ∈ windows manager, win ∉ candidates → manager'.group.focused ≠ some win ∧
    manager'.group.interactionWindow ≠ some win ∧ manager'.lastScrollingFocus ≠ some win

/-! ### Columns by their windows -/

variable {env : Env} {group : ScrollingGroup} {manager : Manager} {columns : List Column}
  {candidates stale : List Window} {win : Window}

theorem flatMap_windows_eq : columns.flatMap (·.windows) = (placing columns).flatMap (·.2) := by
  rw [placing, List.flatMap_map]

theorem placing_storeWidth (column : Column) :
    ((storeWidth env group column).id, (storeWidth env group column).windows) =
      (column.id, column.windows) := by
  rw [storeWidth]
  split <;> rfl

theorem placing_storeWidths {target : ℕ} :
    placing (storeWidths env group columns target) = placing columns := by
  rw [placing, storeWidths, List.map_append, List.map_map]
  have hstore : ((fun c : Column => (c.id, c.windows)) ∘ storeWidth env group) =
      fun c => (c.id, c.windows) := funext placing_storeWidth
  rw [hstore, ← List.map_append, List.takeWhile_append_dropWhile, placing]

theorem placing_measured :
    placing (measured env manager win).group.columns = placing manager.group.columns := by
  rw [measured]
  split
  · rfl
  · next column _ =>
    refine Eq.trans ?_ (@placing_storeWidths env manager.group _ column.id)
    rw [placing, List.map_map, placing]
    refine List.map_congr_left fun c _ => ?_
    rw [Function.comp_apply]
    split
    · exact placing_storeWidth c
    · rfl

theorem placing_restore {rect : ScrollingRect} :
    placing (restore env manager win rect).group.columns = placing manager.group.columns := by
  rw [restore]
  split
  · rfl
  · exact placing_storeWidths

/-! ### The windows that are gone -/

/-- The column without some of its windows. -/
def without (stale : List Window) (column : Column) : Column :=
  { column with windows := column.windows.filter (· ∉ stale) }

theorem flatMap_without : (columns.map (without stale)).flatMap (·.windows) =
    (columns.flatMap (·.windows)).filter (· ∉ stale) := by
  rw [List.flatMap_map, List.filter_flatMap]
  rfl

theorem without_eq_self {column : Column} (h : win ∉ column.windows) :
    without [win] column = column := by
  have hfilter : column.windows.filter (· ∉ [win]) = column.windows := by
    refine List.filter_eq_self.mpr fun w hw => ?_
    simpa using fun he : w = win => h (he ▸ hw)
  rw [without, hfilter]

theorem removeWindow_eq (h : (columns.flatMap (·.windows)).Nodup) :
    removeWindow win columns = columns.map (without [win]) := by
  induction columns with
  | nil => rfl
  | cons column columns ih =>
    rw [List.flatMap_cons, List.nodup_append'] at h
    obtain ⟨hcolumn, hcolumns, hdisjoint⟩ := h
    rw [removeWindow, List.map_cons]
    by_cases hwin : win ∈ column.windows
    · have hrest : columns.map (without [win]) = columns := by
        refine List.map_congr_left (g := id) (fun c hc => without_eq_self fun hw => ?_) |>.trans
          (List.map_id _)
        exact hdisjoint hwin (List.mem_flatMap.mpr ⟨c, hc, hw⟩)
      have herase : column.windows.erase win = column.windows.filter (· ∉ [win]) := by
        rw [hcolumn.erase_eq_filter]
        refine List.filter_congr fun w _ => ?_
        by_cases hw : w = win <;> simp [hw]
      rw [if_pos hwin, hrest, without, herase]
    · rw [if_neg hwin, ih hcolumns, without_eq_self hwin]

/-- The manager without some of its windows. -/
def dropAll (stale : List Window) (manager : Manager) : Manager :=
  { manager with
    group := { manager.group with
      columns := manager.group.columns.map (without stale)
      focused := manager.group.focused.filter (· ∉ stale)
      interactionWindow := manager.group.interactionWindow.filter (· ∉ stale) }
    insertionAnchors := fun win => if win ∈ stale then none else manager.insertionAnchors win
    lastScrollingFocus := manager.lastScrollingFocus.filter (· ∉ stale) }

theorem without_without {column : Column} :
    without stale (without [win] column) = without (win :: stale) column := by
  simp only [without, List.filter_filter, List.mem_cons, List.not_mem_nil, or_false, not_or,
    Bool.decide_and, Bool.and_comm]

theorem filter_filter_option (o : Option Window) :
    (o.filter (· ≠ win)).filter (· ∉ stale) = o.filter (· ∉ win :: stale) := by
  cases o with
  | none => rfl
  | some w =>
    by_cases hw : w = win
    · simp [Option.filter, hw]
    · simp [Option.filter, hw]

theorem dropAll_dropStale (h : (windows manager).Nodup) :
    dropAll stale (dropStale manager win) = dropAll (win :: stale) manager := by
  have hanchors : (fun w => if w ∈ stale then none
      else Function.update manager.insertionAnchors win none w) =
      fun w => if w ∈ win :: stale then none else manager.insertionAnchors w := by
    funext w
    by_cases hw : w = win
    · simp [hw]
    · simp [hw]
  rw [dropAll, dropAll]
  simp only [dropStale, removeWindow_eq h, List.map_map, filter_filter_option, hanchors]
  congr 2
  exact List.map_congr_left fun _ _ => without_without

/-- **The windows that are gone.** The columns, the focus and the anchors lose them. -/
theorem foldl_dropStale (h : (windows manager).Nodup) :
    stale.foldl dropStale manager = dropAll stale manager := by
  induction stale generalizing manager with
  | nil =>
    have hcolumns : manager.group.columns.map (without []) = manager.group.columns := by
      refine (List.map_congr_left (g := id) fun c _ => ?_).trans (List.map_id _)
      simp [without]
    have hoption (o : Option Window) : o.filter (· ∉ ([] : List Window)) = o := by
      cases o <;> simp
    rw [List.foldl_nil, dropAll, hcolumns, hoption, hoption, hoption]
    simp
  | cons win stale ih =>
    have hdrop : windows (dropStale manager win) = (windows manager).filter (· ∉ [win]) := by
      rw [windows, dropStale, removeWindow_eq h, flatMap_without, windows]
    rw [List.foldl_cons, ih (hdrop ▸ h.filter _), dropAll_dropStale h]

/-! ### The windows that are new -/

theorem partitioned_iff : Partitioned manager ↔
    ((placing manager.group.columns).flatMap (·.2)).Nodup ∧
      ((placing manager.group.columns).map (·.1)).Nodup ∧
      ∀ p ∈ placing manager.group.columns, p.1 < manager.nextColumn := by
  have hids : (placing manager.group.columns).map (·.1) = manager.group.columns.map (·.id) := by
    rw [placing, List.map_map]
    rfl
  rw [← flatMap_windows_eq, hids]
  refine ⟨fun h => ⟨h.windows, h.ids, ?_⟩, fun h => ⟨h.1, h.2.1, fun c hc => ?_⟩⟩
  · intro p hp
    obtain ⟨c, hc, rfl⟩ := List.mem_map.mp hp
    exact h.fresh c hc
  · exact h.2.2 _ (List.mem_map_of_mem hc)

theorem columnForWindow_eq_none :
    columnForWindow columns win = none ↔ ∀ p ∈ placing columns, win ∉ p.2 := by
  simp [columnForWindow, placing]

theorem columnForWindow_eq_some {column : Column} (h : columnForWindow columns win = some column) :
    column ∈ columns ∧ win ∈ column.windows :=
  ⟨List.mem_of_find?_eq_some h, by simpa using List.find?_some h⟩

theorem mem_windows : win ∈ windows manager ↔ ∃ p ∈ placing manager.group.columns, win ∈ p.2 := by
  rw [windows, flatMap_windows_eq, List.mem_flatMap]

variable {anchor : Option Window} {own : Placing} {before after : List Placing}
  {anchors anchors' : Window → Option Window} {wins : List Window}

theorem Places.perm (h : Places anchor own before after) : after.Perm (own :: before) := by
  obtain ⟨_, left, column, right, _, _, rfl, rfl⟩ | ⟨_, rfl⟩ := h
  · exact (List.Perm.append_left left (.swap own column right)).trans List.perm_middle
  · exact List.perm_append_singleton _ _

theorem Places.filter (h : Places anchor own before after) {p : Placing → Bool}
    (hown : p own = false) : after.filter p = before.filter p := by
  obtain ⟨_, left, column, right, _, _, rfl, rfl⟩ | ⟨_, rfl⟩ := h
  · simp [List.filter_cons, hown]
  · simp [hown]

theorem Admits.congr (h : Admits anchors wins before after)
    (heq : ∀ win ∈ wins, anchors win = anchors' win) : Admits anchors' wins before after := by
  induction h with
  | nil columns => exact .nil columns
  | cons hnew hplace _ ih =>
    refine .cons hnew ?_ (ih fun w hw => heq w (List.mem_cons_of_mem _ hw))
    rw [← heq _ List.mem_cons_self]
    exact hplace

/-- A column is put where it belongs. -/
theorem places_insertColumn (hids : (columns.map (·.id)).Nodup) (column : Column) :
    Places anchor (column.id, column.windows) (placing columns)
      (placing (insertColumn columns (anchor.bind (columnForWindow columns)) column)) := by
  cases hfind : anchor.bind (columnForWindow columns) with
  | none =>
    refine .inr ⟨?_, by simp [insertColumn, placing]⟩
    rintro win rfl
    exact columnForWindow_eq_none.mp hfind
  | some beside =>
    obtain ⟨win, rfl, hwin⟩ := Option.bind_eq_some_iff.mp hfind
    obtain ⟨hmem, hin⟩ := columnForWindow_eq_some hwin
    obtain ⟨left, right, rfl⟩ := List.append_of_mem hmem
    have hleft : ∀ c ∈ left, c.id ≠ beside.id := by
      rw [List.map_append, List.map_cons, List.nodup_append] at hids
      exact fun c hc => hids.2.2 c.id (List.mem_map_of_mem hc) beside.id List.mem_cons_self
    have hidx : (left ++ beside :: right).findIdx (·.id = beside.id) = left.length := by
      have hnone : left.findIdx (·.id = beside.id) = left.length :=
        List.findIdx_eq_length.mpr fun c hc => decide_eq_false (hleft c hc)
      rw [List.findIdx_append, hnone, if_neg (lt_irrefl _), List.findIdx_cons]
      simp
    refine .inl ⟨win, placing left, (beside.id, beside.windows), placing right, rfl, hin,
      by simp [placing], ?_⟩
    rw [insertColumn, hidx]
    have hinsert : (left ++ beside :: right).insertIdx (left.length + 1) column =
        left ++ beside :: column :: right := by
      simpa using Lists.insertIdx_append (left ++ [beside]) right column
    rw [hinsert]
    simp [placing]

theorem adopt_of_mem (h : win ∈ windows manager) : adopt env manager win = manager := by
  rw [adopt, if_pos]
  rw [Option.isSome_iff_ne_none]
  intro hnone
  obtain ⟨p, hp, hw⟩ := mem_windows.mp h
  exact columnForWindow_eq_none.mp hnone p hp hw

/-- A window that is new gets its column, and nothing else changes. -/
theorem adopt_spec (env : Env) (hp : Partitioned manager) (h : win ∉ windows manager) :
    Places (manager.insertionAnchors win) (manager.nextColumn, [win])
        (placing manager.group.columns) (placing (adopt env manager win).group.columns) ∧
      (adopt env manager win).nextColumn = manager.nextColumn + 1 ∧
      (adopt env manager win).insertionAnchors =
        Function.update manager.insertionAnchors win none ∧
      (adopt env manager win).group =
        { manager.group with columns := (adopt env manager win).group.columns } ∧
      (adopt env manager win).lastScrollingFocus = manager.lastScrollingFocus := by
  have hnone : columnForWindow manager.group.columns win = none :=
    columnForWindow_eq_none.mpr fun p hp hw => h (mem_windows.mpr ⟨p, hp, hw⟩)
  rw [adopt, if_neg (by simp [hnone])]
  exact ⟨places_insertColumn hp.ids _, rfl, rfl, rfl, rfl⟩

theorem mem_flatMap_of_places (h : Places anchor own before after) {w : Window} :
    (∃ p ∈ after, w ∈ p.2) ↔ w ∈ own.2 ∨ ∃ p ∈ before, w ∈ p.2 := by
  simp only [h.perm.mem_iff, List.mem_cons, exists_eq_or_imp]

theorem partitioned_adopt (env : Env) (hp : Partitioned manager) (h : win ∉ windows manager) :
    Partitioned (adopt env manager win) := by
  obtain ⟨hplace, hnext, -⟩ := adopt_spec env hp h
  obtain ⟨hwindows, hids, hfresh⟩ := partitioned_iff.mp hp
  rw [windows, flatMap_windows_eq] at h
  refine partitioned_iff.mpr ⟨?_, ?_, fun p hmem => ?_⟩
  · rw [(hplace.perm.flatMap_right _).nodup_iff]
    exact List.nodup_cons.mpr ⟨h, hwindows⟩
  · rw [(hplace.perm.map _).nodup_iff]
    refine List.nodup_cons.mpr ⟨fun hmem => ?_, hids⟩
    obtain ⟨p, hmem, he⟩ := List.mem_map.mp hmem
    exact absurd (hfresh p hmem) (by simp [he])
  · rw [hnext]
    rcases List.mem_cons.mp (hplace.perm.mem_iff.mp hmem) with rfl | hmem
    · exact Nat.lt_succ_self _
    · exact (hfresh p hmem).trans (Nat.lt_succ_self _)

/-- What the new windows make of the group. -/
structure Grown (next : ℕ) (candidates : List Window) (manager manager' : Manager) : Prop where
  partitioned : Partitioned manager'
  members : ∀ win, win ∈ windows manager' ↔ win ∈ windows manager ∨ win ∈ candidates
  old : (placing manager'.group.columns).filter (fun p => p.1 < next) =
    (placing manager.group.columns).filter fun p => p.1 < next
  admitted : Admits manager.insertionAnchors (candidates.filter (· ∉ windows manager))
    (placing manager.group.columns) (placing manager'.group.columns)
  group : manager'.group = { manager.group with columns := manager'.group.columns }
  lastScrollingFocus : manager'.lastScrollingFocus = manager.lastScrollingFocus

/-- **The windows that are new.** Each gets its column. -/
theorem grown_foldl_adopt {next : ℕ} (env : Env) (hp : Partitioned manager) (hc : candidates.Nodup)
    (hnext : next ≤ manager.nextColumn) :
    Grown next candidates manager (candidates.foldl (adopt env) manager) := by
  induction candidates generalizing manager with
  | nil => exact ⟨hp, by simp, rfl, .nil _, rfl, rfl⟩
  | cons win candidates ih =>
    obtain ⟨hwin, hc⟩ := List.nodup_cons.mp hc
    rw [List.foldl_cons]
    by_cases hmem : win ∈ windows manager
    · have h := ih hp hc hnext
      rw [adopt_of_mem hmem]
      refine ⟨h.partitioned, fun w => ?_, h.old, ?_, h.group, h.lastScrollingFocus⟩
      · rw [h.members, List.mem_cons]
        exact ⟨fun hw => hw.imp_right .inr, fun hw => hw.elim .inl fun hw =>
          hw.elim (fun he => .inl (he ▸ hmem)) .inr⟩
      · rw [List.filter_cons_of_neg (by simpa using hmem)]
        exact h.admitted
    · obtain ⟨hplace, hsucc, hanchors, hgroup, hlast⟩ := adopt_spec env hp hmem
      have h := ih (partitioned_adopt env hp hmem) hc (by omega)
      have hmembers (w : Window) : w ∈ windows (adopt env manager win) ↔
          w = win ∨ w ∈ windows manager := by
        rw [mem_windows, mem_flatMap_of_places hplace, mem_windows, List.mem_singleton]
      have hrest : candidates.filter (· ∉ windows (adopt env manager win)) =
          candidates.filter (· ∉ windows manager) := by
        refine List.filter_congr fun w hw => ?_
        have hne : w ≠ win := fun he => hwin (he ▸ hw)
        simp [hmembers, hne]
      refine ⟨h.partitioned, fun w => ?_, ?_, ?_, ?_, h.lastScrollingFocus.trans hlast⟩
      · rw [h.members, hmembers, List.mem_cons]
        tauto
      · rw [h.old]
        exact hplace.filter (by simpa using hnext)
      · rw [List.filter_cons_of_pos (by simpa using hmem)]
        refine .cons (fun p hmem => ((partitioned_iff.mp hp).2.2 p hmem).ne) hplace ?_
        rw [← hrest]
        refine h.admitted.congr fun w hw => ?_
        have hne : w ≠ win := fun he => hwin (he ▸ List.mem_of_mem_filter hw)
        rw [hanchors, Function.update_of_ne hne]
      · rw [h.group, hgroup]

/-! ### The middle of the pass -/

theorem placing_removeEmptyColumns :
    placing (removeEmptyColumns columns) = (placing columns).filter fun p => p.2 ≠ [] := by
  rw [removeEmptyColumns, placing, placing, List.filter_map]
  rfl

theorem placing_without (hs : stale = (windows manager).filter (· ∉ candidates)) :
    placing (removeEmptyColumns (manager.group.columns.map (without stale))) =
      remaining manager candidates := by
  have hmap : placing (manager.group.columns.map (without stale)) =
      (placing manager.group.columns).map fun p => (p.1, p.2.filter (· ∈ candidates)) := by
    rw [placing, placing, List.map_map, List.map_map]
    refine List.map_congr_left fun c hc => ?_
    rw [Function.comp_apply, Function.comp_apply, without]
    refine congrArg (c.id, ·) (List.filter_congr fun w hw => ?_)
    have hw' : w ∈ windows manager := List.mem_flatMap.mpr ⟨c, hc, hw⟩
    simp [hs, hw']
  rw [placing_removeEmptyColumns, hmap, remaining]

theorem mem_remaining {p : Placing} (h : p ∈ remaining manager candidates) :
    ∃ column ∈ manager.group.columns,
      p = (column.id, column.windows.filter (· ∈ candidates)) := by
  obtain ⟨q, hq, rfl⟩ := List.mem_map.mp (List.mem_of_mem_filter h)
  obtain ⟨column, hcolumn, rfl⟩ := List.mem_map.mp hq
  exact ⟨column, hcolumn, rfl⟩

theorem flatMap_remaining : (remaining manager candidates).flatMap (·.2) =
    (windows manager).filter (· ∈ candidates) := by
  have hempty (l : List Placing) : (l.filter fun p => p.2 ≠ []).flatMap (·.2) =
      l.flatMap (·.2) := by
    induction l with
    | nil => rfl
    | cons p l ih =>
      by_cases hp : p.2 = []
      · rw [List.filter_cons_of_neg (by simpa using hp), ih, List.flatMap_cons, hp, List.nil_append]
      · rw [List.filter_cons_of_pos (by simpa using hp), List.flatMap_cons, List.flatMap_cons, ih]
  rw [remaining, hempty, List.flatMap_map, windows, flatMap_windows_eq, List.filter_flatMap]

/-- The group with the columns that are left. -/
def thinned (manager : Manager) (candidates : List Window) : Manager :=
  let dropped := dropAll ((windows manager).filter (· ∉ candidates)) manager
  { dropped with group := { dropped.group with
    columns := removeEmptyColumns dropped.group.columns } }

theorem placing_thinned :
    placing (thinned manager candidates).group.columns = remaining manager candidates :=
  placing_without rfl

theorem partitioned_thinned (candidates : List Window) (hp : Partitioned manager) :
    Partitioned (thinned manager candidates) := by
  refine partitioned_iff.mpr ⟨?_, ?_, fun p hmem => ?_⟩
  · rw [placing_thinned, flatMap_remaining]
    exact hp.windows.filter _
  · have hids : (remaining manager candidates).map (·.1) |>.Sublist
        (manager.group.columns.map (·.id)) := by
      refine (List.filter_sublist.map _).trans ?_
      rw [placing, List.map_map, List.map_map]
      exact .refl _
    rw [placing_thinned]
    exact hp.ids.sublist hids
  · rw [placing_thinned] at hmem
    obtain ⟨column, hcolumn, rfl⟩ := mem_remaining hmem
    exact hp.fresh column hcolumn

/-- What becomes of a group when its windows are followed. -/
structure Followed (candidates : List Window) (manager manager' : Manager) : Prop where
  partitioned : Partitioned manager'
  members : ∀ win, win ∈ windows manager' ↔ win ∈ candidates
  kept : (placing manager'.group.columns).filter (fun p => p.1 < manager.nextColumn) =
    remaining manager candidates
  admitted : Admits manager.insertionAnchors (candidates.filter (· ∉ windows manager))
    (remaining manager candidates) (placing manager'.group.columns)
  group : manager'.group = { manager.group with
    columns := manager'.group.columns
    focused := manager.group.focused.filter fun win =>
      win ∉ (windows manager).filter (· ∉ candidates)
    interactionWindow := manager.group.interactionWindow.filter fun win =>
      win ∉ (windows manager).filter (· ∉ candidates) }
  lastScrollingFocus : manager'.lastScrollingFocus = manager.lastScrollingFocus.filter fun win =>
    win ∉ (windows manager).filter (· ∉ candidates)

theorem followed_follow (env : Env) (hp : Partitioned manager) (hc : candidates.Nodup) :
    Followed candidates manager (follow env candidates manager) := by
  have hfollow : follow env candidates manager =
      candidates.foldl (adopt env) (thinned manager candidates) := by
    rw [follow, ← windows, foldl_dropStale hp.windows, thinned]
  have h : Grown manager.nextColumn candidates (thinned manager candidates)
      (candidates.foldl (adopt env) (thinned manager candidates)) :=
    grown_foldl_adopt env (partitioned_thinned candidates hp) hc le_rfl
  have hwindows (w : Window) : w ∈ windows (thinned manager candidates) ↔
      w ∈ windows manager ∧ w ∈ candidates := by
    rw [windows, flatMap_windows_eq, placing_thinned, flatMap_remaining, List.mem_filter,
      decide_eq_true_eq]
  have hfresh : (remaining manager candidates).filter (fun p => p.1 < manager.nextColumn) =
      remaining manager candidates := by
    refine List.filter_eq_self.mpr fun p hmem => ?_
    obtain ⟨column, hcolumn, rfl⟩ := mem_remaining hmem
    exact decide_eq_true (hp.fresh column hcolumn)
  have hnew : candidates.filter (· ∉ windows (thinned manager candidates)) =
      candidates.filter (· ∉ windows manager) := by
    refine List.filter_congr fun w hw => ?_
    simp [hwindows, hw]
  rw [hfollow]
  refine ⟨h.partitioned, fun w => ?_, ?_, ?_, h.group, h.lastScrollingFocus⟩
  · rw [h.members, hwindows]
    tauto
  · rw [h.old, placing_thinned, hfresh]
  · rw [← hnew, ← placing_thinned]
    refine h.admitted.congr fun w hw => ?_
    rw [hnew] at hw
    have hnot : w ∉ (windows manager).filter (· ∉ candidates) := fun hc' => by
      simp only [List.mem_filter, decide_eq_true_eq] at hw hc'
      exact hc'.2 hw.1
    exact if_neg hnot

/-! ### The window that stays in its place -/

theorem widthFor_storeWidth (column : Column) :
    widthFor env group (storeWidth env group column) = widthFor env group column := by
  have hpos : 0 < defaultColumnWidth env group := by
    rw [defaultColumnWidth, minColumnWidth]
    omega
  have hstore : storeWidth env group (storeWidth env group column) =
      storeWidth env group column := by
    by_cases hw : column.width ≤ 0
    · rw [storeWidth, storeWidth, if_pos hw, if_neg (by simpa using hpos)]
    · rw [storeWidth, storeWidth, if_neg hw, if_neg hw]
  rw [widthFor, widthFor, hstore]

/-- The widths that are stored are the ones that are used. -/
theorem logicalX_storeWidths {target : ℕ} :
    logicalX env group (storeWidths env group columns target) target =
      logicalX env group columns target := by
  induction columns with
  | nil => rfl
  | cons c columns ih =>
    by_cases hc : c.id = target
    · simp [storeWidths, hc]
    · have hid : (storeWidth env group c).id = c.id := congrArg Prod.fst (placing_storeWidth c)
      have hstore : storeWidths env group (c :: columns) target =
          storeWidth env group c :: storeWidths env group columns target := by
        simp [storeWidths, hc]
      rw [logicalX, logicalX] at ih
      rw [hstore, logicalX, List.takeWhile_cons_of_pos (by simpa [hid] using hc), List.map_cons,
        List.sum_cons, ih, widthFor_storeWidth, logicalX,
        List.takeWhile_cons_of_pos (by simpa using hc), List.map_cons, List.sum_cons]

theorem columnForWindow_storeWidths {target : ℕ} :
    (columnForWindow (storeWidths env group columns target) win).map (·.id) =
      (columnForWindow columns win).map (·.id) := by
  have hfind (columns : List Column) : (columnForWindow columns win).map (·.id) =
      ((placing columns).find? fun p => win ∈ p.2).map (·.1) := by
    rw [columnForWindow, placing, List.find?_map, Option.map_map]
    rfl
  rw [hfind, hfind, placing_storeWidths]

theorem x_rectForCount {column : Column} {row count : ℕ} :
    (rectForCount env group column row count).x = wrap32 (group.area.x + wrap32 (roundAway
      (fl (logicalX env group group.columns column.id - group.offset)))) :=
  rfl

/-- A place that is on the screen is found again from the offset that is computed of it. -/
theorem place_of_offset (area : Workarea) {x : ℤ} (logical : ℤ) (hx : wrap32 x = x) :
    wrap32 (area.x + wrap32 (roundAway (fl (logical - (area.x + logical - x : ℤ))))) = x := by
  have hdiff : (logical : ℚ) - (area.x + logical - x : ℤ) = (x - area.x : ℤ) := by
    push_cast
    ring
  have hbounds := wrap32_bounds x
  have harea := wrap32_bounds area.x
  rw [hx] at hbounds
  rw [area.x_int] at harea
  rw [hdiff, fl_intCast (abs_lt.mpr ⟨by omega, by omega⟩), roundAway_intCast]
  have hback := wrap32_add_wrap32_sub area.x x
  rw [hx] at hback
  exact hback

/-- **The window that stays in its place.** -/
theorem x_restore (env : Env) {rect : ScrollingRect} (hx : wrap32 rect.x = rect.x)
    (hwin : win ∈ windows manager) :
    ∃ rect', rectForWindow env (restore env manager win rect).group win = some rect' ∧
      rect'.x = rect.x := by
  obtain ⟨column, hcolumn⟩ : ∃ column,
      columnForWindow manager.group.columns win = some column := by
    refine Option.ne_none_iff_exists'.mp fun hnone => ?_
    obtain ⟨p, hp, hw⟩ := mem_windows.mp hwin
    exact columnForWindow_eq_none.mp hnone p hp hw
  have hstored := @columnForWindow_storeWidths env manager.group manager.group.columns win column.id
  rw [hcolumn, Option.map_some, Option.map_eq_some_iff] at hstored
  obtain ⟨column', hcolumn', hid⟩ := hstored
  rw [restore, hcolumn, rectForWindow, hcolumn', Option.map_some]
  refine ⟨_, rfl, ?_⟩
  rw [x_rectForCount, hid]
  have hlogical := @logicalX_storeWidths env manager.group manager.group.columns column.id
  exact (congrArg (fun l : ℤ => wrap32 (manager.group.area.x + wrap32 (roundAway (fl (l -
    (manager.group.area.x + logicalX env manager.group manager.group.columns column.id -
      rect.x : ℤ)))))) hlogical).trans (place_of_offset _ _ hx)

/-! ### The whole pass -/

/-- The two managers differ in widths and in where the strip is. -/
structure Alike (manager manager' : Manager) : Prop where
  placing : placing manager'.group.columns = placing manager.group.columns
  nextColumn : manager'.nextColumn = manager.nextColumn
  insertionAnchors : manager'.insertionAnchors = manager.insertionAnchors
  area : manager'.group.area = manager.group.area
  focused : manager'.group.focused = manager.group.focused
  interactionWindow : manager'.group.interactionWindow = manager.group.interactionWindow
  lastScrollingFocus : manager'.lastScrollingFocus = manager.lastScrollingFocus

variable {manager' : Manager}

theorem Alike.windows (h : Alike manager manager') : windows manager' = windows manager := by
  rw [Tiling.windows, Tiling.windows, flatMap_windows_eq, flatMap_windows_eq, h.placing]

theorem Alike.partitioned (h : Alike manager manager') (hp : Partitioned manager) :
    Partitioned manager' := by
  rw [partitioned_iff, h.placing, h.nextColumn]
  exact partitioned_iff.mp hp

theorem Alike.remaining (h : Alike manager manager') :
    remaining manager' candidates = remaining manager candidates := by
  rw [Tiling.remaining, Tiling.remaining, h.placing]

theorem Alike.refl : Alike manager manager := ⟨rfl, rfl, rfl, rfl, rfl, rfl, rfl⟩

theorem alike_measured : Alike manager (measured env manager win) := by
  refine ⟨placing_measured, ?_, ?_, ?_, ?_, ?_, ?_⟩ <;> (rw [measured]; split <;> rfl)

theorem alike_restore {rect : ScrollingRect} :
    Alike manager (restore env manager win rect) := by
  refine ⟨placing_restore, ?_, ?_, ?_, ?_, ?_, ?_⟩ <;> (rw [restore]; split <;> rfl)

theorem anchorFor_eq_some :
    anchorFor manager.group candidates = some win ↔ IsAnchor manager candidates win := by
  rw [anchorFor, IsAnchor, ← windows]
  cases manager.group.focused with
  | none => simp
  | some focused =>
    by_cases hfocused : focused ∈ candidates
    · simp only [Option.filter_some, hfocused, decide_true, if_true, Option.some_or,
        Option.some.injEq, forall_eq', not_true, false_and, or_false]
      exact ⟨fun he => ⟨he, he ▸ hfocused⟩, And.left⟩
    · simp only [Option.filter_some, hfocused, decide_false, Bool.false_eq_true, if_false,
        Option.none_or, Option.some.injEq, forall_eq', not_false_eq_true, true_and]
      refine ⟨.inr, ?_⟩
      rintro (⟨rfl, hwin⟩ | hfind)
      · exact absurd hwin hfocused
      · exact hfind

theorem exists_isAnchor (h : ∃ win ∈ windows manager, win ∈ candidates) :
    ∃ win, IsAnchor manager candidates win := by
  obtain ⟨win, hwin, hmem⟩ := h
  refine (Option.ne_none_iff_exists'.mp fun hnone => ?_).imp fun _ => anchorFor_eq_some.mp
  rw [anchorFor, Option.or_eq_none_iff, ← windows] at hnone
  exact List.find?_eq_none.mp hnone.2 win hwin (by simpa using hmem)

/-- What is meant of a pass whose parts are known, but for the place of the anchor. -/
theorem synced_of_followed {before followed : Manager} (hbefore : Alike manager before)
    (h : Followed candidates before followed) (hafter : Alike followed manager')
    (hanchored : ∀ win ∈ windows manager, IsAnchor manager candidates win →
      ∃ rect rect', rectForWindow env manager.group win = some rect ∧
        rectForWindow env manager'.group win = some rect' ∧ rect'.x = rect.x) :
    Synced env candidates manager manager' where
  partitioned := hafter.partitioned h.partitioned
  members win := by
    rw [hafter.windows]
    exact h.members win
  kept := by
    rw [hafter.placing, ← hbefore.nextColumn, h.kept, hbefore.remaining]
  admitted := by
    rw [hafter.placing, ← hbefore.insertionAnchors, ← hbefore.windows, ← hbefore.remaining]
    exact h.admitted
  area := by
    rw [hafter.area, h.group]
    exact hbefore.area
  hasAnchor := exists_isAnchor
  anchored := hanchored
  removed win hwin hgone := by
    have hstale : win ∈ (windows before).filter (· ∉ candidates) := by
      rw [hbefore.windows]
      exact List.mem_filter.mpr ⟨hwin, by simpa using hgone⟩
    have hfilter (o : Option Window) :
        o.filter (fun w => w ∉ (windows before).filter (· ∉ candidates)) ≠ some win := fun hc => by
      have hnot := (Option.filter_eq_some_iff.mp hc).2
      exact (of_decide_eq_true hnot) hstale
    rw [hafter.focused, hafter.interactionWindow, hafter.lastScrollingFocus, h.group,
      h.lastScrollingFocus]
    exact ⟨hfilter _, hfilter _, hfilter _⟩

/-- **The group after the windows have changed.** -/
theorem synced_syncGroup (env : Env) (hp : Partitioned manager) (hc : candidates.Nodup) :
    Synced env candidates manager (syncGroup env manager candidates) := by
  have hbefore : Alike manager
      ((anchorFor manager.group candidates).elim manager (measured env manager)) := by
    cases anchorFor manager.group candidates with
    | none => exact .refl
    | some win => exact alike_measured
  have hfollowed := followed_follow env (hbefore.partitioned hp) hc
  rw [syncGroup]
  cases hanchor : anchorFor manager.group candidates with
  | none =>
    rw [hanchor] at hbefore hfollowed
    refine synced_of_followed hbefore hfollowed .refl fun win _ hwin => ?_
    rw [← anchorFor_eq_some, hanchor] at hwin
    cases hwin
  | some win =>
    rw [hanchor] at hbefore hfollowed
    rw [Option.bind_some]
    have hunique {w : Window} (hw : IsAnchor manager candidates w) : w = win := by
      rw [← anchorFor_eq_some, hanchor] at hw
      exact (Option.some.inj hw).symm
    cases hrect : rectForWindow env manager.group win with
    | none =>
      refine synced_of_followed hbefore hfollowed .refl fun w hw hwa => ?_
      obtain rfl := hunique hwa
      obtain ⟨p, hp, hin⟩ := mem_windows.mp hw
      rw [rectForWindow, Option.map_eq_none_iff] at hrect
      exact absurd hin (columnForWindow_eq_none.mp hrect p hp)
    | some rect =>
      refine synced_of_followed hbefore hfollowed alike_restore fun w hw hwa => ?_
      obtain rfl := hunique hwa
      have hmem : w ∈ candidates := by
        rcases hwa with ⟨_, hmem⟩ | ⟨_, hfind⟩
        · exact hmem
        · simpa using List.find?_some hfind
      have hx : wrap32 rect.x = rect.x := by
        obtain ⟨column, _, rfl⟩ := Option.map_eq_some_iff.mp hrect
        exact wrap32_wrap32 _
      obtain ⟨rect', hrect', hsame⟩ := x_restore env hx ((hfollowed.members w).mpr hmem)
      exact ⟨rect, rect', hrect, hrect', hsame⟩

/-- Two columns, of which the first has two windows, and a window that was opened beside them. -/
def threeWindows : Manager where
  group :=
    { area := ⟨0, 0, 1200, 900, wrap32_zero, wrap32_zero, by decide, by decide⟩
      outputAreas := []
      referenceWidth := 1200
      columns := [⟨0, [1, 2], 600⟩, ⟨1, [3], 600⟩]
      focused := some 1
      interactionWindow := none
      offset := 1 / 3 }
  insertionAnchors win := if win = 4 then some 2 else none
  startupWindows := []
  lastScrollingFocus := some 1
  nextColumn := 2

def halfWidth : Env := ⟨50, 8, fun _ => false, fun _ => none⟩

theorem synced_threeWindows :
    Synced halfWidth [2, 3, 4] threeWindows (syncGroup halfWidth threeWindows [2, 3, 4]) ∧
      placing (syncGroup halfWidth threeWindows [2, 3, 4]).group.columns =
        [(0, [2]), (2, [4]), (1, [3])] :=
  ⟨synced_syncGroup _ ⟨by decide, by decide, by decide⟩ (by decide), by decide +kernel⟩

end Tiling

end SingularityShell
