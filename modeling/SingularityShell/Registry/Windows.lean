import Mathlib.Data.List.Nodup
import Mathlib.Data.List.Perm.Lattice
import SingularityShell.Lib.Cells
import SingularityShell.Lib.Lists
import SingularityShell.Registry.Model

/-!
# The windows are registered

Each window that is open is on one workspace, or waits to be put on one. A window that waits is put
on a workspace by a callback that does not know of those, and is then put on one again.

## Main definitions

* `Registry.Registered` — what the lists of the shell say about the windows that are open
* `Registry.Regular` — a callback that does not meet a window that waits or that was closed

## Main results

* `Registry.places_placeWindow`, `Registry.places_foldl_adopt` — the windows that are put on a
  workspace
* `Registry.running_reresolve` — the applications that run once the ids are known
* `Registry.known_step` — the step lemma
* `Registry.registered_of_regular` — in a run of such callbacks the windows are registered
-/

namespace SingularityShell

namespace Registry

open Ascii

/-! ### The property -/

/-- The windows that got the focus, each once, in order of the last time. -/
def lastFocus : List ℕ → List ℕ
  | [] => []
  | win :: log => win :: (lastFocus log).filter (· ≠ win)

/-- Each window that is open is on one workspace or waits, no other is on one, those that got the
focus come first in order of the last time, and the applications that run are those of the windows.
-/
structure Registered (s : State) : Prop where
  distinct : s.ids.Nodup
  once : ∀ win ∈ s.ids, (s.cells.flatMap s.windowsOf ++ s.orphanWindows).count win = 1
  tracked : ∀ ws ∈ s.cells, ∀ win ∈ s.windowsOf ws, win ∈ s.ids
  mru : s.mruWindows.Nodup ∧ ∀ win ∈ s.mruWindows, win ∈ s.ids
  perm : (getMruWindows s).Perm s.ids
  order : getMruWindows s =
    (lastFocus s.focusLog).filter (· ∈ s.ids) ++ s.ids.filter (· ∉ s.focusLog)
  running : s.runningApps.Nodup ∧
    ∀ appId, appId ∈ s.runningApps ↔ ∃ win ∈ s.windows, win.appId = appId

/-- A window that is open and does not wait for a workspace. -/
def Movable (s : State) (win : ℕ) : Prop := win ∈ s.ids ∧ win ∉ s.orphanWindows

variable (down : Text → Text)

/-- The window gets another id. -/
def Renamed (resolve : Text → Option AppInfo) (win : Window) : Prop :=
  (reresolve down resolve win).appId ≠ win.appId

/-- A window that is moved is open and does not wait for a workspace, a window that waits finds one,
and an id that a window gives up and another has is given again by a later window. -/
def Regular (s : State) : Event → Prop
  | .workspaceCreated handle =>
    (∀ ws ∈ s.workspaces, ws.handle ≠ handle) → ∀ win, s.windowToMove = some win → Movable s win
  | .moveWindow win ws => ws ∈ s.cells → Movable s win
  | .followIdle c handle => handle ∈ s.following → workspacesPerMonitor c s →
    ∀ win monitor target, s.windows.find? (·.handle = handle) = some win →
      c.windowMonitor handle = some monitor →
      getActiveWorkspaceOn c s (some monitor) = some target →
      win.id ∉ s.orphanWindows
  | .changedIdle c => s.changedPending → s.workspaces ≠ [] →
    ∀ win ∈ s.windows, win.id ∈ s.orphanWindows → (adoptTarget c s win).isSome
  | .scanApps resolve =>
    ∀ before win after, s.windows = before ++ win :: after → Renamed down resolve win →
      (∃ other ∈ s.windows, (reresolve down resolve other).appId = win.appId) →
      ∃ other ∈ after, Renamed down resolve other ∧ (reresolve down resolve other).appId = win.appId
  | _ => True

/-! ### The invariant -/

/-- The windows that are open are on the workspaces and among those that wait, each once. -/
structure Places (s : State) : Prop where
  nodup : s.ids.Nodup
  ids : ∀ win ∈ s.ids, win < s.nextWindow
  orphans : ∀ win ∈ s.orphanWindows, win < s.nextWindow
  cells : s.cells.Nodup
  fresh : ∀ ws ∈ s.cells, ws < s.nextWorkspace
  perm : (s.cells.flatMap s.windowsOf ++ s.orphanWindows.filter (· ∈ s.ids)).Perm s.ids

/-- The windows are in order of their focus. -/
structure Focused (s : State) : Prop where
  log : ∀ win ∈ s.focusLog, win < s.nextWindow
  mru : s.mruWindows = (lastFocus s.focusLog).filter (· ∈ s.ids)

/-- The applications that run are those of the windows. -/
def Running (s : State) : Prop :=
  s.runningApps.Nodup ∧ ∀ appId, appId ∈ s.runningApps ↔ ∃ win ∈ s.windows, win.appId = appId

/-- What the callbacks keep. -/
structure Known (s : State) : Prop where
  places : Places s
  focused : Focused s
  running : Running s

variable {s s' : State}

theorem Places.congr (h : Places s) (hids : s'.ids = s.ids) (hcells : s'.cells = s.cells)
    (hof : s'.windowsOf = s.windowsOf) (horphans : s'.orphanWindows = s.orphanWindows)
    (hwindow : s'.nextWindow = s.nextWindow) (hworkspace : s'.nextWorkspace = s.nextWorkspace) :
    Places s' := by
  refine ⟨?_, ?_, ?_, ?_, ?_, ?_⟩
  · rw [hids]
    exact h.nodup
  · rw [hids, hwindow]
    exact h.ids
  · rw [horphans, hwindow]
    exact h.orphans
  · rw [hcells]
    exact h.cells
  · rw [hcells, hworkspace]
    exact h.fresh
  · rw [hids, hcells, hof, horphans]
    exact h.perm

theorem Focused.congr (h : Focused s) (hids : s'.ids = s.ids) (hlog : s'.focusLog = s.focusLog)
    (hmru : s'.mruWindows = s.mruWindows) (hwindow : s'.nextWindow = s.nextWindow) :
    Focused s' := by
  refine ⟨?_, ?_⟩
  · rw [hlog, hwindow]
    exact h.log
  · rw [hlog, hmru, hids]
    exact h.mru

theorem Running.congr (h : Running s) (hrunning : s'.runningApps = s.runningApps)
    (happs : s'.windows.map (·.appId) = s.windows.map (·.appId)) : Running s' := by
  have hmem : ∀ appId, (∃ win ∈ s'.windows, win.appId = appId) ↔
      ∃ win ∈ s.windows, win.appId = appId := fun appId => by
    rw [← List.mem_map, happs, List.mem_map]
  refine ⟨?_, fun appId => ?_⟩
  · rw [hrunning]
    exact h.1
  · rw [hrunning, hmem]
    exact h.2 appId

/-! ### Windows on workspaces -/

theorem Places.disjoint (h : Places s) {win : ℕ} (hmem : win ∈ s.cells.flatMap s.windowsOf) :
    win ∈ s.ids ∧ win ∉ s.orphanWindows := by
  have hids := h.perm.mem_iff.mp (List.mem_append_left _ hmem)
  refine ⟨hids, fun horphan => ?_⟩
  have hnodup := h.perm.nodup_iff.mpr h.nodup
  refine List.disjoint_of_nodup_append hnodup hmem (List.mem_filter.mpr ⟨horphan, ?_⟩)
  exact decide_eq_true hids

/-- A window that is open and does not wait is on a workspace. -/
theorem Places.exists_workspaceOf (h : Places s) {win : ℕ} (hmovable : Movable s win) :
    ∃ ws, workspaceOf s win = some ws := by
  rcases List.mem_append.mp (h.perm.mem_iff.mpr hmovable.1) with hmem | horphan
  · obtain ⟨id, hid, hwin⟩ := List.mem_flatMap.mp hmem
    obtain ⟨ws, hws, rfl⟩ := List.mem_map.mp hid
    refine Option.isSome_iff_exists.mp (List.find?_isSome.mpr ⟨ws, hws, ?_⟩)
    exact List.contains_iff_mem.mpr hwin
  · exact absurd (List.mem_filter.mp horphan).1 hmovable.2

theorem mem_of_workspaceOf {win : ℕ} {ws : Workspace} (h : workspaceOf s win = some ws) :
    ws.id ∈ s.cells ∧ win ∈ s.windowsOf ws.id := by
  rw [workspaceOf] at h
  have hcontains : (s.windowsOf ws.id).contains win = true :=
    (List.find?_eq_some_iff_append.mp h).1
  exact ⟨List.mem_map_of_mem (List.mem_of_find?_eq_some h), List.contains_iff_mem.mp hcontains⟩

/-- The windows on the workspaces in another order. -/
theorem Places.rearrange (h : Places s) {windowsOf : ℕ → List ℕ}
    (hperm : (s.cells.flatMap windowsOf).Perm (s.cells.flatMap s.windowsOf)) :
    Places { s with windowsOf } :=
  ⟨h.nodup, h.ids, h.orphans, h.cells, h.fresh, (hperm.append_right _).trans h.perm⟩

theorem places_placeWindow (h : Places s) {win ws : ℕ} (hmovable : Movable s win)
    (hws : ws ∈ s.cells) : Places (placeWindow win ws s) := by
  obtain ⟨current, hcurrent⟩ := h.exists_workspaceOf hmovable
  obtain ⟨hcell, hmem⟩ := mem_of_workspaceOf hcurrent
  rw [placeWindow, hcurrent]
  dsimp only
  split_ifs with hsame
  · exact h
  · refine (h.rearrange ?_).congr rfl rfl rfl rfl rfl rfl
    exact (Cells.flatMap_put_perm h.cells hws).trans (Cells.flatMap_take_perm h.cells hcell hmem)

theorem places_followWindowMonitor (h : Places s) {c : Compositor} {handle : Handle}
    (hok : workspacesPerMonitor c s → ∀ win monitor target,
      s.windows.find? (·.handle = handle) = some win → c.windowMonitor handle = some monitor →
      getActiveWorkspaceOn c s (some monitor) = some target → win.id ∉ s.orphanWindows) :
    Places (followWindowMonitor c handle s) := by
  rw [followWindowMonitor]
  split_ifs with hper
  · cases hwin : s.windows.find? (·.handle = handle) with
    | none => exact h
    | some win =>
      cases hmonitor : c.windowMonitor handle with
      | none => exact h
      | some monitor =>
        dsimp only
        split_ifs
        · exact h
        · cases htarget : getActiveWorkspaceOn c s (some monitor) with
          | none => exact h
          | some target =>
            have hmem := List.mem_of_mem_filter (List.mem_of_find?_eq_some htarget)
            have hid : win.id ∈ s.ids := List.mem_map_of_mem (List.mem_of_find?_eq_some hwin)
            exact places_placeWindow h ⟨hid, hok hper win monitor target hwin hmonitor htarget⟩
              (List.mem_map_of_mem hmem)
  · exact h

theorem places_moveWindow (h : Places s) {win ws : ℕ} (hok : ws ∈ s.cells → Movable s win) :
    Places (moveWindowToWorkspace win ws s) := by
  rw [moveWindowToWorkspace]
  split_ifs with hcell
  · have hws := List.contains_iff_mem.mp hcell
    exact places_placeWindow h (hok hws) hws
  · exact h

/-- A workspace with no windows. -/
theorem Places.addWorkspace (h : Places s) (ws : Workspace) (hid : ws.id = s.nextWorkspace) :
    Places { s with
      workspaces := s.workspaces ++ [ws]
      windowsOf := Function.update s.windowsOf s.nextWorkspace []
      nextWorkspace := s.nextWorkspace + 1 } := by
  have hnew : s.nextWorkspace ∉ s.cells := fun hmem => Nat.lt_irrefl _ (h.fresh _ hmem)
  obtain ⟨cells, hcells⟩ : ∃ cells, cells = s.cells ++ [s.nextWorkspace] := ⟨_, rfl⟩
  have hcells' : (s.workspaces ++ [ws]).map (·.id) = cells := by
    rw [hcells, List.map_append, List.map_singleton, hid]
    rfl
  refine ⟨h.nodup, h.ids, h.orphans, ?_, ?_, ?_⟩
  · show ((s.workspaces ++ [ws]).map (·.id)).Nodup
    rw [hcells', hcells]
    exact h.cells.append (List.nodup_singleton _) (List.disjoint_singleton.mpr hnew)
  · show ∀ id ∈ (s.workspaces ++ [ws]).map (·.id), id < s.nextWorkspace + 1
    rw [hcells', hcells]
    intro id hmem
    rcases List.mem_append.mp hmem with hold | hlast
    · exact Nat.lt_succ_of_lt (h.fresh id hold)
    · rw [List.mem_singleton.mp hlast]
      exact Nat.lt_succ_self _
  · show ((((s.workspaces ++ [ws]).map (·.id)).flatMap
      (Function.update s.windowsOf s.nextWorkspace [])) ++ _).Perm _
    rw [hcells', hcells, List.flatMap_append, Cells.flatMap_update_of_notMem hnew,
      List.flatMap_singleton, Function.update_self, List.append_nil]
    exact h.perm

theorem places_onWorkspaceCreated (h : Places s) {handle : Handle}
    (hok : (∀ ws ∈ s.workspaces, ws.handle ≠ handle) →
      ∀ win, s.windowToMove = some win → Movable s win) :
    Places (onWorkspaceCreated handle s) := by
  rw [onWorkspaceCreated]
  dsimp only
  split_ifs with hknown
  · exact h
  · have hnew : ∀ ws ∈ s.workspaces, ws.handle ≠ handle := fun ws hws he =>
      hknown (List.any_eq_true.mpr ⟨ws, hws, decide_eq_true he⟩)
    have hadded := h.addWorkspace { id := s.nextWorkspace, handle } rfl
    obtain ⟨t, ht⟩ : ∃ t, t = scheduleWorkspacesChanged { s with
        workspaces := s.workspaces ++ [{ id := s.nextWorkspace, handle }]
        windowsOf := Function.update s.windowsOf s.nextWorkspace []
        nextWorkspace := s.nextWorkspace + 1 } := ⟨_, rfl⟩
    have hplaces : Places t := by
      rw [ht]
      exact hadded.congr rfl rfl rfl rfl rfl rfl
    have hwin : t.windowToMove = s.windowToMove := by
      rw [ht]
      rfl
    have hmovable : ∀ win, Movable t win ↔ Movable s win := fun win => by
      rw [ht]
      rfl
    rw [← ht]
    cases htm : t.windowToMove with
    | none => exact hplaces
    | some win =>
      have hplaces' : Places { t with windowToMove := none } :=
        hplaces.congr rfl rfl rfl rfl rfl rfl
      exact places_moveWindow hplaces' fun _ =>
        (hmovable win).mpr (hok hnew win (hwin.symm.trans htm))

theorem places_onWorkspaceDestroyed (h : Places s) (c : Compositor) (handle : Handle) :
    Places (onWorkspaceDestroyed c handle s) := by
  rw [onWorkspaceDestroyed]
  cases hfound : s.workspaces.find? (·.handle = handle) with
  | none => exact h
  | some found =>
    obtain ⟨s', hs'⟩ : ∃ s', s' = scheduleWorkspacesChanged { s with
        windows := s.windows.map fun win =>
          if (s.windowsOf found.id).contains win.id then
            { win with workspaceIndex := (indexInGroup c found s.workspaces 0).getD 0 }
          else win
        orphanWindows := s.orphanWindows ++ s.windowsOf found.id
        workspaces := s.workspaces.eraseP (·.id = found.id) } := ⟨_, rfl⟩
    have hids : s'.ids = s.ids := by
      rw [hs', State.ids, State.ids]
      show (s.windows.map _).map _ = _
      rw [List.map_map]
      refine List.map_congr_left fun win _ => ?_
      show (if _ then _ else win : Window).id = win.id
      split_ifs <;> rfl
    have hcells : s'.cells = s.cells.erase found.id := by
      rw [hs', State.cells, State.cells, List.erase_eq_eraseP', List.eraseP_map]
      rfl
    have hmem : found.id ∈ s.cells := List.mem_map_of_mem (List.mem_of_find?_eq_some hfound)
    have hof : s'.windowsOf = s.windowsOf := by rw [hs']; rfl
    have horphans : s'.orphanWindows = s.orphanWindows ++ s.windowsOf found.id := by rw [hs']; rfl
    have htracked : ∀ win ∈ s.windowsOf found.id, win ∈ s.ids := fun win hwin =>
      (h.disjoint (List.mem_flatMap.mpr ⟨found.id, hmem, hwin⟩)).1
    have hnext : s'.nextWindow = s.nextWindow ∧ s'.nextWorkspace = s.nextWorkspace := by
      rw [hs']
      exact ⟨rfl, rfl⟩
    dsimp only
    rw [← hs']
    refine ⟨?_, ?_, ?_, ?_, ?_, ?_⟩
    · rw [hids]
      exact h.nodup
    · rw [hids, hnext.1]
      exact h.ids
    · rw [horphans, hnext.1]
      intro win hwin
      rcases List.mem_append.mp hwin with hold | hnew
      · exact h.orphans win hold
      · exact h.ids win (htracked win hnew)
    · rw [hcells]
      exact h.cells.erase _
    · rw [hcells, hnext.2]
      exact fun ws hws => h.fresh ws (List.mem_of_mem_erase hws)
    · rw [hids, hcells, hof, horphans, List.filter_append,
        List.filter_eq_self.mpr fun win hwin => decide_eq_true (htracked win hwin)]
      refine List.Perm.trans ?_ h.perm
      refine List.Perm.trans ?_ ((Cells.flatMap_perm s.windowsOf hmem).symm.append_right _)
      rw [List.append_assoc]
      refine List.perm_append_comm.trans ?_
      rw [List.append_assoc]
      refine List.perm_append_comm.trans ?_
      rw [List.append_assoc]

/-! ### Windows that wait -/

theorem adoptTarget_mem {c : Compositor} {win : Window} {target : Workspace}
    (h : adoptTarget c s win = some target) : target.id ∈ s.cells := by
  rcases Option.or_eq_some_iff.mp h with hat | ⟨-, hactive⟩
  · exact List.mem_map_of_mem (List.mem_of_mem_filter (List.mem_of_getElem? hat))
  · exact List.mem_map_of_mem (List.mem_of_mem_filter (List.mem_of_find?_eq_some hactive))

/-- **The windows that wait are put on workspaces.** -/
theorem places_foldl_adopt {c : Compositor} {pending : List ℕ} (hcells : s.cells.Nodup)
    (hperm : (s.cells.flatMap s.windowsOf ++ pending.filter (· ∈ s.ids)).Perm s.ids)
    (hok : ∀ win ∈ s.windows, win.id ∈ pending → (adoptTarget c s win).isSome) :
    ∃ windowsOf, pending.foldl (adopt c) s = { s with windowsOf } ∧
      (s.cells.flatMap windowsOf).Perm s.ids := by
  induction pending generalizing s with
  | nil =>
    rw [List.filter_nil, List.append_nil] at hperm
    exact ⟨s.windowsOf, rfl, hperm⟩
  | cons id pending ih =>
    rw [List.foldl_cons, adopt]
    cases hwin : s.windows.find? (·.id = id) with
    | none =>
      have hid : id ∉ s.ids := fun hmem => by
        obtain ⟨win, hmem, hid⟩ := List.mem_map.mp hmem
        exact List.find?_eq_none.mp hwin win hmem (decide_eq_true hid)
      rw [List.filter_cons_of_neg (by simpa using hid)] at hperm
      exact ih hcells hperm fun win hmem hpending => hok win hmem (List.mem_cons_of_mem _ hpending)
    | some win =>
      obtain ⟨hwinid, hwinmem⟩ : win.id = id ∧ win ∈ s.windows :=
        (Lists.of_find? hwin).symm
      have hid : id ∈ s.ids := hwinid ▸ List.mem_map_of_mem hwinmem
      obtain ⟨target, htarget⟩ := Option.isSome_iff_exists.mp
        (hok win hwinmem (hwinid ▸ List.mem_cons_self))
      rw [List.filter_cons_of_pos (by simpa using hid)] at hperm
      dsimp only
      rw [htarget]
      have hput : (s.cells.flatMap (putWindow id target.id s).windowsOf ++
          pending.filter (· ∈ s.ids)).Perm s.ids := by
        refine List.Perm.trans ?_ hperm
        refine ((Cells.flatMap_put_perm hcells (adoptTarget_mem htarget)).append_right _).trans ?_
        exact List.perm_middle.symm
      obtain ⟨windowsOf, hfold, hresult⟩ := ih (s := putWindow id target.id s) hcells hput
        fun win hmem hpending => hok win hmem (List.mem_cons_of_mem _ hpending)
      exact ⟨windowsOf, hfold, hresult⟩

theorem places_adoptOrphanWindows (h : Places s) {c : Compositor}
    (hok : s.workspaces ≠ [] →
      ∀ win ∈ s.windows, win.id ∈ s.orphanWindows → (adoptTarget c s win).isSome) :
    Places (adoptOrphanWindows c s) ∧ ∃ windowsOf orphanWindows,
      adoptOrphanWindows c s = { s with windowsOf, orphanWindows } := by
  rw [adoptOrphanWindows]
  split_ifs with hnone
  · exact ⟨h, s.windowsOf, s.orphanWindows, rfl⟩
  · have hsome : s.workspaces ≠ [] := fun he => hnone (Or.inr he)
    obtain ⟨windowsOf, hfold, hperm⟩ :=
      places_foldl_adopt (s := { s with orphanWindows := [] }) h.cells h.perm (hok hsome)
    rw [hfold]
    refine ⟨⟨h.nodup, h.ids, List.forall_mem_nil _, h.cells, h.fresh, ?_⟩, windowsOf, [], rfl⟩
    show (_ ++ List.filter _ []).Perm _
    rw [List.filter_nil, List.append_nil]
    exact hperm

/-! ### Windows that open and close -/

theorem places_targetWorkspace (h : Places s) (c : Compositor) (handle : Handle) :
    Places (targetWorkspace c handle s).1 ∧
      (targetWorkspace c handle s).2 ∈ (targetWorkspace c handle s).1.cells := by
  rw [targetWorkspace]
  cases hws : s.workspaces with
  | nil =>
    have hadded := h.addWorkspace { id := s.nextWorkspace, handle := 0, active := true } rfl
    rw [hws] at hadded
    exact ⟨hadded, List.mem_singleton_self _⟩
  | cons first workspaces =>
    refine ⟨h, List.mem_map_of_mem ?_⟩
    cases hactive : getActiveWorkspaceOn c s (c.windowMonitor handle) with
    | none =>
      rw [Option.getD_none, hws]
      exact List.mem_cons_self
    | some target =>
      exact List.mem_of_mem_filter (List.mem_of_find?_eq_some hactive)

/-- A window that is announced is put on a workspace. -/
theorem Places.addWindow (h : Places s) (win : Window) (hid : win.id = s.nextWindow) {ws : ℕ}
    (hws : ws ∈ s.cells) :
    Places (putWindow s.nextWindow ws
      { s with windows := s.windows ++ [win], nextWindow := s.nextWindow + 1 }) := by
  have hnew : s.nextWindow ∉ s.ids := fun hmem => Nat.lt_irrefl _ (h.ids _ hmem)
  obtain ⟨ids, hids⟩ : ∃ ids, ids = s.ids ++ [s.nextWindow] := ⟨_, rfl⟩
  have hids' : (s.windows ++ [win]).map (·.id) = ids := by
    rw [hids, List.map_append, List.map_singleton, hid]
    rfl
  have hfilter : s.orphanWindows.filter (· ∈ ids) = s.orphanWindows.filter (· ∈ s.ids) := by
    refine List.filter_congr fun id hmem => decide_eq_decide.mpr ?_
    rw [hids, List.mem_append, List.mem_singleton]
    exact or_iff_left (Nat.ne_of_lt (h.orphans id hmem))
  refine ⟨?_, ?_, fun id hmem => Nat.lt_succ_of_lt (h.orphans id hmem), h.cells, h.fresh, ?_⟩
  · show ((s.windows ++ [win]).map (·.id)).Nodup
    rw [hids', hids]
    exact h.nodup.append (List.nodup_singleton _) (List.disjoint_singleton.mpr hnew)
  · show ∀ id ∈ (s.windows ++ [win]).map (·.id), id < s.nextWindow + 1
    rw [hids', hids]
    intro id hmem
    rcases List.mem_append.mp hmem with hold | hlast
    · exact Nat.lt_succ_of_lt (h.ids id hold)
    · rw [List.mem_singleton.mp hlast]
      exact Nat.lt_succ_self _
  · show (_ ++ s.orphanWindows.filter (· ∈ (s.windows ++ [win]).map (·.id))).Perm
      ((s.windows ++ [win]).map (·.id))
    rw [hids', hfilter, hids]
    refine ((Cells.flatMap_put_perm h.cells hws).append_right _).trans ?_
    rw [List.cons_append]
    exact (h.perm.cons _).trans (List.perm_append_singleton _ _).symm

theorem ids_eraseP (s : State) (id : ℕ) :
    (s.windows.eraseP (·.id = id)).map (·.id) = s.ids.erase id := by
  rw [State.ids, List.erase_eq_eraseP', List.eraseP_map]
  rfl

theorem places_leaveWorkspace (h : Places s) {win : ℕ} (hwin : win ∈ s.ids) {windows : List Window}
    (hids : windows.map (·.id) = s.ids.erase win) :
    Places (leaveWorkspace win { s with windows }) := by
  have hfilter : s.orphanWindows.filter (· ∈ s.ids.erase win) =
      (s.orphanWindows.filter (· ∈ s.ids)).filter (· ≠ win) := by
    rw [List.filter_filter]
    refine List.filter_congr fun id _ => ?_
    rw [← Bool.decide_and]
    exact decide_eq_decide.mpr h.nodup.mem_erase_iff
  have hcons := List.perm_cons_erase hwin
  have hkept : ∀ {windowsOf : ℕ → List ℕ},
      (s.cells.flatMap windowsOf ++ s.orphanWindows.filter (· ∈ s.ids.erase win)).Perm
        (s.ids.erase win) → Places { s with windows, windowsOf } := by
    intro windowsOf hperm
    refine ⟨?_, ?_, h.orphans, h.cells, h.fresh, ?_⟩
    · show (windows.map (·.id)).Nodup
      rw [hids]
      exact h.nodup.erase win
    · show ∀ id ∈ windows.map (·.id), id < s.nextWindow
      rw [hids]
      exact fun id hmem => h.ids id (List.mem_of_mem_erase hmem)
    · show (_ ++ s.orphanWindows.filter (· ∈ windows.map (·.id))).Perm (windows.map (·.id))
      rw [hids]
      exact hperm
  rw [leaveWorkspace]
  cases hws : workspaceOf { s with windows } win with
  | some ws =>
    obtain ⟨hcell, hmem⟩ := mem_of_workspaceOf hws
    have hon := h.disjoint (List.mem_flatMap.mpr ⟨ws.id, hcell, hmem⟩)
    have horphans : (s.orphanWindows.filter (· ∈ s.ids)).filter (· ≠ win) =
        s.orphanWindows.filter (· ∈ s.ids) := by
      refine List.filter_eq_self.mpr fun id hid => decide_eq_true ?_
      rintro rfl
      exact hon.2 (List.mem_filter.mp hid).1
    refine (hkept ?_).congr rfl rfl rfl rfl rfl rfl
    rw [hfilter, horphans]
    refine List.Perm.cons_inv (a := win) (List.Perm.trans ?_ (h.perm.trans hcons))
    exact (Cells.flatMap_take_perm h.cells hcell hmem).append_right _
  | none =>
    refine hkept ?_
    have hoff : win ∉ s.cells.flatMap s.windowsOf := fun hmem => by
      obtain ⟨id, hid, hon⟩ := List.mem_flatMap.mp hmem
      obtain ⟨ws, hmemws, rfl⟩ := List.mem_map.mp hid
      exact List.find?_eq_none.mp hws ws hmemws (List.contains_iff_mem.mpr hon)
    have hnodup : (s.orphanWindows.filter (· ∈ s.ids)).Nodup :=
      (List.nodup_append.mp (h.perm.nodup_iff.mpr h.nodup)).2.1
    have hmem : win ∈ s.orphanWindows.filter (· ∈ s.ids) :=
      (List.mem_append.mp (h.perm.mem_iff.mpr hwin)).resolve_left hoff
    rw [hfilter, ← Lists.erase_eq_filter_ne hnodup]
    refine List.Perm.cons_inv (a := win) (List.Perm.trans ?_ (h.perm.trans hcons))
    exact List.perm_middle.symm.trans ((List.perm_cons_erase hmem).symm.append_left _)

/-! ### The order of focus -/

theorem mem_of_mem_lastFocus {log : List ℕ} {win : ℕ} (h : win ∈ lastFocus log) : win ∈ log := by
  induction log with
  | nil => cases h
  | cons other log ih =>
    rcases List.mem_cons.mp h with rfl | hmem
    · exact List.mem_cons_self
    · exact List.mem_cons_of_mem _ (ih (List.mem_filter.mp hmem).1)

theorem mem_lastFocus {log : List ℕ} {win : ℕ} (h : win ∈ log) : win ∈ lastFocus log := by
  induction log with
  | nil => cases h
  | cons other log ih =>
    by_cases he : win = other
    · exact he ▸ List.mem_cons_self
    · refine List.mem_cons_of_mem _ (List.mem_filter.mpr ⟨ih ?_, decide_eq_true he⟩)
      exact (List.mem_cons.mp h).resolve_left he

theorem nodup_lastFocus (log : List ℕ) : (lastFocus log).Nodup := by
  induction log with
  | nil => exact List.nodup_nil
  | cons win log ih =>
    refine List.nodup_cons.mpr ⟨fun hmem => ?_, ih.filter _⟩
    exact of_decide_eq_true (List.mem_filter.mp hmem).2 rfl

theorem Focused.nodup (h : Focused s) : s.mruWindows.Nodup := by
  rw [h.mru]
  exact (nodup_lastFocus _).filter _

theorem Focused.mem_iff (h : Focused s) {win : ℕ} :
    win ∈ s.mruWindows ↔ win ∈ s.focusLog ∧ win ∈ s.ids := by
  rw [h.mru, List.mem_filter, decide_eq_true_iff]
  exact and_congr_left fun _ => ⟨mem_of_mem_lastFocus, mem_lastFocus⟩

theorem Focused.focus (h : Focused s) (hids : ∀ win ∈ s.ids, win < s.nextWindow) {win : ℕ}
    (hwin : win ∈ s.ids) :
    Focused { s with
      mruWindows := win :: s.mruWindows.erase win
      focusLog := win :: s.focusLog } := by
  refine ⟨fun id hmem => ?_, ?_⟩
  · rcases List.mem_cons.mp hmem with rfl | hold
    · exact hids _ hwin
    · exact h.log id hold
  · show win :: s.mruWindows.erase win =
      (win :: (lastFocus s.focusLog).filter (· ≠ win)).filter (· ∈ s.ids)
    rw [List.filter_cons_of_pos (by simpa using hwin), Lists.erase_eq_filter_ne h.nodup, h.mru,
      List.filter_comm]

/-- The order after some windows opened. -/
theorem Focused.open (h : Focused s) {windows : List Window} {ids : List ℕ} {nextWindow : ℕ}
    (hids : windows.map (·.id) = s.ids ++ ids) (hfresh : ∀ id ∈ ids, s.nextWindow ≤ id)
    (hnext : s.nextWindow ≤ nextWindow) : Focused { s with windows, nextWindow } := by
  refine ⟨fun id hmem => Nat.lt_of_lt_of_le (h.log id hmem) hnext, ?_⟩
  show s.mruWindows = (lastFocus s.focusLog).filter (· ∈ windows.map (·.id))
  rw [h.mru, hids]
  refine List.filter_congr fun id hmem => decide_eq_decide.mpr ?_
  rw [List.mem_append]
  refine (or_iff_left fun hnew => ?_).symm
  exact Nat.not_lt.mpr (hfresh id hnew) (h.log id (mem_of_mem_lastFocus hmem))

theorem Focused.close (h : Focused s) (hnodup : s.ids.Nodup) {windows : List Window} {win : ℕ}
    (hids : windows.map (·.id) = s.ids.erase win) :
    Focused { s with windows, mruWindows := s.mruWindows.erase win } := by
  refine ⟨h.log, ?_⟩
  show s.mruWindows.erase win = (lastFocus s.focusLog).filter (· ∈ windows.map (·.id))
  rw [hids, Lists.erase_eq_filter_ne h.nodup, h.mru, List.filter_filter]
  refine List.filter_congr fun id _ => ?_
  rw [← Bool.decide_and]
  exact decide_eq_decide.mpr hnodup.mem_erase_iff.symm

theorem foldl_append_of_nodup {ids : List ℕ} (hids : ids.Nodup) (list : List ℕ) :
    ids.foldl (fun list id => if id ∈ list then list else list ++ [id]) list =
      list ++ ids.filter (· ∉ list) := by
  induction ids generalizing list with
  | nil => exact (List.append_nil _).symm
  | cons id ids ih =>
    obtain ⟨hid, hids⟩ := List.nodup_cons.mp hids
    rw [List.foldl_cons, ih hids]
    by_cases hmem : id ∈ list
    · rw [if_pos hmem, List.filter_cons_of_neg (by simpa using hmem)]
    · rw [if_neg hmem, List.filter_cons_of_pos (by simpa using hmem), List.append_assoc,
        List.singleton_append]
      refine congrArg (fun l => list ++ id :: l) (List.filter_congr fun other hother => ?_)
      refine decide_eq_decide.mpr (not_congr ?_)
      rw [List.mem_append, List.mem_singleton]
      exact or_iff_left (fun he => hid (he ▸ hother))

theorem getMruWindows_eq (h : Focused s) (hnodup : s.ids.Nodup) :
    getMruWindows s = s.mruWindows ++ s.ids.filter (· ∉ s.mruWindows) := by
  have hself : s.mruWindows.filter (· ∈ s.ids) = s.mruWindows :=
    List.filter_eq_self.mpr fun id hmem => decide_eq_true (h.mem_iff.mp hmem).2
  rw [getMruWindows, hself]
  exact foldl_append_of_nodup hnodup _

theorem getMruWindows_perm (h : Focused s) (hnodup : s.ids.Nodup) :
    (getMruWindows s).Perm s.ids := by
  rw [getMruWindows_eq h hnodup]
  have hfirst : s.mruWindows.Perm (s.ids.filter (· ∈ s.mruWindows)) :=
    (List.perm_ext_iff_of_nodup h.nodup (hnodup.filter _)).mpr fun id => by
      rw [List.mem_filter, decide_eq_true_iff]
      exact ⟨fun hmem => ⟨(h.mem_iff.mp hmem).2, hmem⟩, And.right⟩
  refine (hfirst.append_right _).trans ?_
  have hall := List.filter_append_perm (fun id => decide (id ∈ s.mruWindows)) s.ids
  rw [List.filter_congr fun id _ => (decide_not (p := id ∈ s.mruWindows)).symm] at hall
  exact hall

/-! ### The applications that run -/

theorem mem_addRunning {appId other : Text} {running : List Text} :
    other ∈ addRunning appId running ↔ other ∈ running ∨ other = appId := by
  rw [addRunning]
  split_ifs with hmem
  · obtain ⟨known, hknown, he⟩ := List.any_eq_true.mp hmem
    refine (or_iff_left_of_imp ?_).symm
    rintro rfl
    exact of_decide_eq_true he ▸ hknown
  · rw [List.mem_append, List.mem_singleton]

theorem nodup_addRunning {running : List Text} (h : running.Nodup) (appId : Text) :
    (addRunning appId running).Nodup := by
  rw [addRunning]
  split_ifs with hmem
  · exact h
  · refine h.append (List.nodup_singleton _) (List.disjoint_singleton.mpr fun hin => ?_)
    exact hmem (List.any_eq_true.mpr ⟨appId, hin, decide_eq_true rfl⟩)

section
variable {down} {resolve : Text → Option AppInfo} {windows : List Window} {running : List Text}

theorem nodup_reresolveRunning (h : running.Nodup) :
    (windows.foldl (reresolveRunning down resolve) running).Nodup := by
  induction windows generalizing running with
  | nil => exact h
  | cons win windows ih =>
    refine ih ?_
    rw [reresolveRunning]
    split_ifs
    · exact h
    · exact nodup_addRunning (h.erase _) _

/-- An id is there at the end when a window got it and no later one gave it up, or when it was there
and none gave it up. -/
theorem mem_reresolveRunning (h : running.Nodup) {appId : Text} :
    appId ∈ windows.foldl (reresolveRunning down resolve) running ↔
      (∃ before win after, windows = before ++ win :: after ∧ Renamed down resolve win ∧
        (reresolve down resolve win).appId = appId ∧
        ∀ other ∈ after, ¬(Renamed down resolve other ∧ other.appId = appId)) ∨
      appId ∈ running ∧ ∀ other ∈ windows, ¬(Renamed down resolve other ∧ other.appId = appId) := by
  induction windows generalizing running with
  | nil =>
    refine ⟨fun hmem => Or.inr ⟨hmem, List.forall_mem_nil _⟩, ?_⟩
    rintro (⟨before, win, after, hnil, -⟩ | ⟨hmem, -⟩)
    · exact absurd hnil.symm (List.append_ne_nil_of_right_ne_nil _ (List.cons_ne_nil _ _))
    · exact hmem
  | cons win windows ih =>
    have hstep : ([win].foldl (reresolveRunning down resolve) running).Nodup :=
      nodup_reresolveRunning h
    rw [List.foldl_cons, ih (by exact hstep)]
    have hmem : appId ∈ reresolveRunning down resolve running win ↔
        Renamed down resolve win ∧ (reresolve down resolve win).appId = appId ∨
        appId ∈ running ∧ ¬(Renamed down resolve win ∧ win.appId = appId) := by
      rw [reresolveRunning]
      split_ifs with hsame
      · have hnot : ¬Renamed down resolve win := fun hne => hne hsame
        constructor
        · exact fun hin => Or.inr ⟨hin, fun hboth => hnot hboth.1⟩
        · rintro (⟨hren, -⟩ | ⟨hin, -⟩)
          · exact absurd hren hnot
          · exact hin
      · rw [mem_addRunning, h.mem_erase_iff]
        constructor
        · rintro (⟨hne, hin⟩ | he)
          · exact Or.inr ⟨hin, fun hboth => hne hboth.2.symm⟩
          · exact Or.inl ⟨hsame, he.symm⟩
        · rintro (⟨-, he⟩ | ⟨hin, hnot⟩)
          · exact Or.inr he.symm
          · exact Or.inl ⟨fun he => hnot ⟨hsame, he.symm⟩, hin⟩
    constructor
    · rintro (⟨before, other, after, rfl, hother⟩ | ⟨hin, hnone⟩)
      · exact Or.inl ⟨win :: before, other, after, rfl, hother⟩
      · rcases hmem.mp hin with ⟨hren, hnew⟩ | ⟨hold, hnot⟩
        · exact Or.inl ⟨[], win, windows, rfl, hren, hnew, hnone⟩
        · exact Or.inr ⟨hold, List.forall_mem_cons.mpr ⟨hnot, hnone⟩⟩
    · rintro (⟨before, other, after, hsplit, hother⟩ | ⟨hin, hnone⟩)
      · rcases before with _ | ⟨first, before⟩
        · obtain ⟨rfl, rfl⟩ := List.cons.inj hsplit
          exact Or.inr ⟨hmem.mpr (Or.inl ⟨hother.1, hother.2.1⟩), hother.2.2⟩
        · obtain ⟨-, rfl⟩ := List.cons.inj hsplit
          exact Or.inl ⟨before, other, after, rfl, hother⟩
      · obtain ⟨hnot, hnone⟩ := List.forall_mem_cons.mp hnone
        exact Or.inr ⟨hmem.mpr (Or.inr ⟨hin, hnot⟩), hnone⟩

/-- **The applications that run once the ids are known.** -/
theorem running_reresolve (h : Running s)
    (hok : ∀ before win after, s.windows = before ++ win :: after → Renamed down resolve win →
      (∃ other ∈ s.windows, (reresolve down resolve other).appId = win.appId) →
      ∃ other ∈ after, Renamed down resolve other ∧
        (reresolve down resolve other).appId = win.appId) :
    Running (reresolveWindowIcons down resolve s) := by
  refine ⟨nodup_reresolveRunning h.1, fun appId => ?_⟩
  have hmem : (∃ win ∈ s.windows.map (reresolve down resolve), win.appId = appId) ↔
      ∃ win ∈ s.windows, (reresolve down resolve win).appId = appId := by
    constructor
    · rintro ⟨_, hmapped, he⟩
      obtain ⟨win, hwin, rfl⟩ := List.mem_map.mp hmapped
      exact ⟨win, hwin, he⟩
    · rintro ⟨win, hwin, he⟩
      exact ⟨_, List.mem_map_of_mem hwin, he⟩
  refine (mem_reresolveRunning h.1).trans (Iff.trans ?_ hmem.symm)
  constructor
  · rintro (⟨before, win, after, hsplit, -, hnew, -⟩ | ⟨hin, hnone⟩)
    · refine ⟨win, ?_, hnew⟩
      rw [hsplit]
      exact List.mem_append_right _ List.mem_cons_self
    · obtain ⟨win, hwin, hold⟩ := (h.2 appId).mp hin
      refine ⟨win, hwin, ?_⟩
      by_contra hne
      exact hnone win hwin ⟨fun he => hne (he.trans hold), hold⟩
  · rintro ⟨win, hwin, hnew⟩
    by_cases hgone : ∃ other ∈ s.windows, Renamed down resolve other ∧ other.appId = appId
    · -- The last window that gives the id up comes before one that gets it.
      obtain ⟨before, last, after, hsplit, ⟨hrenamed, hlast⟩, hlater⟩ := Lists.exists_last hgone
      obtain ⟨other, hother, hotherRenamed, hotherNew⟩ := hok before last after hsplit hrenamed
        ⟨win, hwin, hnew.trans hlast.symm⟩
      obtain ⟨before', after', hafter⟩ := List.append_of_mem hother
      refine Or.inl ⟨before ++ last :: before', other, after', ?_, hotherRenamed,
        hotherNew.trans hlast, fun later hmem => hlater later ?_⟩
      · rw [hsplit, hafter, List.append_assoc, List.cons_append]
      · rw [hafter]
        exact List.mem_append_right _ (List.mem_cons_of_mem _ hmem)
    · have hkept : ∀ other ∈ s.windows, ¬(Renamed down resolve other ∧ other.appId = appId) :=
        fun other hother hboth => hgone ⟨other, hother, hboth⟩
      by_cases hrenamed : Renamed down resolve win
      · obtain ⟨before, after, hsplit⟩ := List.append_of_mem hwin
        refine Or.inl
          ⟨before, win, after, hsplit, hrenamed, hnew, fun other hother => hkept other ?_⟩
        rw [hsplit]
        exact List.mem_append_right _ (List.mem_cons_of_mem _ hother)
      · have hsame : (reresolve down resolve win).appId = win.appId := not_not.mp hrenamed
        exact Or.inr ⟨(h.2 appId).mpr ⟨win, hwin, hsame.symm.trans hnew⟩, hkept⟩

end

theorem Running.open (h : Running s) (win : Window) :
    (addRunning win.appId s.runningApps).Nodup ∧
      ∀ appId, appId ∈ addRunning win.appId s.runningApps ↔
        ∃ other ∈ s.windows ++ [win], other.appId = appId := by
  refine ⟨nodup_addRunning h.1 _, fun appId => ?_⟩
  rw [mem_addRunning, h.2]
  constructor
  · rintro (⟨other, hother, he⟩ | rfl)
    · exact ⟨other, List.mem_append_left _ hother, he⟩
    · exact ⟨win, List.mem_append_right _ (List.mem_singleton_self _), rfl⟩
  · rintro ⟨other, hother, he⟩
    rcases List.mem_append.mp hother with hold | hnew
    · exact Or.inl ⟨other, hold, he⟩
    · exact Or.inr (by rw [← he, List.mem_singleton.mp hnew])

theorem Running.close (h : Running s) (hnodup : s.ids.Nodup) {win : Window}
    (hwin : win ∈ s.windows) :
    (∃ other ∈ s.windows.eraseP (·.id = win.id), other.appId = win.appId) ∧
      (∀ appId, appId ∈ s.runningApps ↔
        ∃ other ∈ s.windows.eraseP (·.id = win.id), other.appId = appId) ∨
    (¬∃ other ∈ s.windows.eraseP (·.id = win.id), other.appId = win.appId) ∧
      ∀ appId, appId ∈ s.runningApps.erase win.appId ↔
        ∃ other ∈ s.windows.eraseP (·.id = win.id), other.appId = appId := by
  have hrest : ∀ other ∈ s.windows, other ∈ s.windows.eraseP (·.id = win.id) ∨ other = win := by
    intro other hother
    by_cases he : other.id = win.id
    · exact Or.inr (List.inj_on_of_nodup_map hnodup hother hwin he)
    · exact Or.inl ((List.mem_eraseP_of_neg (by simpa using he)).mpr hother)
  have hsub : ∀ other ∈ s.windows.eraseP (·.id = win.id), other ∈ s.windows := fun other hother =>
    List.mem_of_mem_eraseP hother
  by_cases hstill : ∃ other ∈ s.windows.eraseP (·.id = win.id), other.appId = win.appId
  · refine Or.inl ⟨hstill, fun appId => ?_⟩
    rw [h.2]
    constructor
    · rintro ⟨other, hother, rfl⟩
      rcases hrest other hother with hin | rfl
      · exact ⟨other, hin, rfl⟩
      · exact hstill
    · rintro ⟨other, hother, he⟩
      exact ⟨other, hsub other hother, he⟩
  · refine Or.inr ⟨hstill, fun appId => ?_⟩
    rw [h.1.mem_erase_iff, h.2]
    constructor
    · rintro ⟨hne, other, hother, rfl⟩
      rcases hrest other hother with hin | rfl
      · exact ⟨other, hin, rfl⟩
      · exact absurd rfl hne
    · rintro ⟨other, hother, rfl⟩
      exact ⟨fun he => hstill ⟨other, hother, he⟩, other, hsub other hother, rfl⟩

/-! ### The callbacks -/

/-- A step that moves windows between workspaces and does nothing else. -/
structure Frame (s s' : State) : Prop where
  ids : s'.ids = s.ids
  apps : s'.windows.map (·.appId) = s.windows.map (·.appId)
  mru : s'.mruWindows = s.mruWindows
  log : s'.focusLog = s.focusLog
  running : s'.runningApps = s.runningApps
  nextWindow : s'.nextWindow = s.nextWindow

theorem Known.frame (h : Known s) (hplaces : Places s') (hframe : Frame s s') : Known s' :=
  ⟨hplaces, h.focused.congr hframe.ids hframe.log hframe.mru hframe.nextWindow,
    h.running.congr hframe.running hframe.apps⟩

theorem frame_placeWindow (win ws : ℕ) : Frame s (placeWindow win ws s) := by
  rw [placeWindow]
  cases workspaceOf s win with
  | none => exact ⟨rfl, rfl, rfl, rfl, rfl, rfl⟩
  | some current =>
    dsimp only
    split_ifs
    · exact ⟨rfl, rfl, rfl, rfl, rfl, rfl⟩
    · exact ⟨rfl, rfl, rfl, rfl, rfl, rfl⟩

theorem frame_moveWindow (win ws : ℕ) : Frame s (moveWindowToWorkspace win ws s) := by
  rw [moveWindowToWorkspace]
  split_ifs
  · exact frame_placeWindow win ws
  · exact ⟨rfl, rfl, rfl, rfl, rfl, rfl⟩

theorem frame_followWindowMonitor (c : Compositor) (handle : Handle) :
    Frame s (followWindowMonitor c handle s) := by
  have hself : Frame s s := ⟨rfl, rfl, rfl, rfl, rfl, rfl⟩
  rw [followWindowMonitor]
  split_ifs
  · cases s.windows.find? (·.handle = handle) with
    | none => exact hself
    | some win =>
      cases c.windowMonitor handle with
      | none => exact hself
      | some monitor =>
        dsimp only
        split_ifs
        · exact hself
        · cases getActiveWorkspaceOn c s (some monitor) with
          | none => exact hself
          | some target => exact frame_placeWindow win.id target.id
  · exact hself

theorem frame_onWorkspaceCreated (handle : Handle) : Frame s (onWorkspaceCreated handle s) := by
  rw [onWorkspaceCreated]
  dsimp only
  split_ifs
  · exact ⟨rfl, rfl, rfl, rfl, rfl, rfl⟩
  · cases (scheduleWorkspacesChanged { s with
        workspaces := s.workspaces ++ [{ id := s.nextWorkspace, handle }]
        windowsOf := Function.update s.windowsOf s.nextWorkspace []
        nextWorkspace := s.nextWorkspace + 1 }).windowToMove with
    | none => exact ⟨rfl, rfl, rfl, rfl, rfl, rfl⟩
    | some win =>
      have hmove := fun t : State => frame_moveWindow (s := t) win s.nextWorkspace
      exact ⟨(hmove _).ids, (hmove _).apps, (hmove _).mru, (hmove _).log, (hmove _).running,
        (hmove _).nextWindow⟩

theorem frame_onWorkspaceDestroyed (c : Compositor) (handle : Handle) :
    Frame s (onWorkspaceDestroyed c handle s) := by
  rw [onWorkspaceDestroyed]
  cases s.workspaces.find? (·.handle = handle) with
  | none => exact ⟨rfl, rfl, rfl, rfl, rfl, rfl⟩
  | some found =>
    refine ⟨?_, ?_, rfl, rfl, rfl, rfl⟩
    · show (s.windows.map _).map _ = s.windows.map _
      rw [List.map_map]
      refine List.map_congr_left fun win _ => ?_
      show (if _ then _ else win : Window).id = win.id
      split_ifs <;> rfl
    · show (s.windows.map _).map _ = s.windows.map _
      rw [List.map_map]
      refine List.map_congr_left fun win _ => ?_
      show (if _ then _ else win : Window).appId = win.appId
      split_ifs <;> rfl

theorem places_onWorkspaceState (h : Places s) (handle : Handle) (active : Bool) :
    Places (onWorkspaceState handle active s) := by
  refine h.congr rfl ?_ rfl rfl rfl rfl
  show (s.workspaces.map _).map _ = s.workspaces.map _
  rw [List.map_map]
  refine List.map_congr_left fun ws _ => ?_
  show (if _ then _ else ws : Workspace).id = ws.id
  split_ifs <;> rfl

theorem known_handleAppFocused (h : Known s) (handle : Handle) :
    Known (handleAppFocused handle s) := by
  rw [handleAppFocused]
  dsimp only
  cases hfound : s.windows.find? (·.handle = handle) with
  | none => exact h.frame (h.places.congr rfl rfl rfl rfl rfl rfl) ⟨rfl, rfl, rfl, rfl, rfl, rfl⟩
  | some found =>
    have hmem : found.id ∈ s.ids := List.mem_map_of_mem (Lists.of_find? hfound).1
    have hfocus := h.focused.focus h.places.ids hmem
    exact ⟨h.places.congr rfl rfl rfl rfl rfl rfl, hfocus.congr rfl rfl rfl rfl,
      h.running.congr rfl rfl⟩

theorem targetWorkspace_eq (c : Compositor) (handle : Handle) (s : State) (windows : List Window)
    (nextWindow : ℕ) :
    targetWorkspace c handle { s with windows, nextWindow } =
      ({ (targetWorkspace c handle s).1 with windows, nextWindow },
        (targetWorkspace c handle s).2) := by
  obtain ⟨workspaces⟩ := s
  cases workspaces <;> rfl

theorem frame_targetWorkspace (c : Compositor) (handle : Handle) :
    Frame s (targetWorkspace c handle s).1 ∧
      (targetWorkspace c handle s).1.windows = s.windows := by
  rw [targetWorkspace]
  cases s.workspaces with
  | nil => exact ⟨⟨rfl, rfl, rfl, rfl, rfl, rfl⟩, rfl⟩
  | cons first workspaces => exact ⟨⟨rfl, rfl, rfl, rfl, rfl, rfl⟩, rfl⟩

theorem known_addRunningApp (h : Known s) (c : Compositor) (resolve : Text → Option AppInfo)
    (handle : Handle) (raw : Option Text) : Known (addRunningApp c resolve handle raw s) := by
  rw [addRunningApp]
  split_ifs
  · exact h
  · obtain ⟨appId, gicon⟩ := identify resolve raw
    dsimp only
    rw [targetWorkspace_eq]
    obtain ⟨hplaces, hcell⟩ := places_targetWorkspace h.places c handle
    obtain ⟨hframe, hwindows⟩ := frame_targetWorkspace (s := s) c handle
    have hnext := hframe.nextWindow
    obtain ⟨win, hwin⟩ : ∃ win : Window, win = { id := s.nextWindow, handle, appId, gicon } :=
      ⟨_, rfl⟩
    have hopened := hplaces.addWindow win (by rw [hwin, hnext]) hcell
    rw [hwindows, hnext] at hopened
    rw [← hwin]
    refine ⟨hopened.congr rfl rfl rfl rfl rfl rfl, ?_, ?_⟩
    · have hids : (s.windows ++ [win]).map (·.id) = s.ids ++ [s.nextWindow] := by
        rw [List.map_append, List.map_singleton, hwin]
        rfl
      have hfocused := h.focused.open hids (fun id hid => (List.mem_singleton.mp hid).ge)
        (Nat.le_succ _)
      exact hfocused.congr rfl hframe.log hframe.mru rfl
    · have happ : win.appId = appId := by rw [hwin]
      have hrunning := h.running.open win
      rw [happ, ← hframe.running] at hrunning
      exact hrunning

theorem frame_leaveWorkspace (win : ℕ) : Frame s (leaveWorkspace win s) ∧
    (leaveWorkspace win s).windows = s.windows := by
  rw [leaveWorkspace]
  cases workspaceOf s win with
  | none => exact ⟨⟨rfl, rfl, rfl, rfl, rfl, rfl⟩, rfl⟩
  | some ws => exact ⟨⟨rfl, rfl, rfl, rfl, rfl, rfl⟩, rfl⟩

theorem known_removeRunningApp (h : Known s) (handle : Handle) :
    Known (removeRunningApp handle s) := by
  rw [removeRunningApp]
  cases hfound : s.windows.find? (·.handle = handle) with
  | none => exact h
  | some found =>
    have hmem := (Lists.of_find? hfound).1
    obtain ⟨t, ht⟩ : ∃ t, t = { s with
        windows := s.windows.eraseP (·.id = found.id)
        mruWindows := s.mruWindows.erase found.id
        focusedHandle := if handle = s.focusedHandle then 0 else s.focusedHandle } := ⟨_, rfl⟩
    have hplaces : Places (leaveWorkspace found.id t) := by
      have hbefore : Places { s with
          mruWindows := s.mruWindows.erase found.id
          focusedHandle := if handle = s.focusedHandle then 0 else s.focusedHandle } :=
        h.places.congr rfl rfl rfl rfl rfl rfl
      rw [ht]
      exact places_leaveWorkspace hbefore (List.mem_map_of_mem hmem) (ids_eraseP s found.id)
    have hfocused : Focused t := by
      rw [ht]
      exact (h.focused.close h.places.nodup (ids_eraseP s found.id)).congr rfl rfl rfl rfl
    obtain ⟨hframe, hwindows⟩ := frame_leaveWorkspace (s := t) found.id
    have hfocused' := hfocused.congr hframe.ids hframe.log hframe.mru hframe.nextWindow
    have hrunning : t.runningApps = s.runningApps := by rw [ht]
    have hwindows' : t.windows = s.windows.eraseP (·.id = found.id) := by rw [ht]
    dsimp only
    rw [← ht]
    have hstill : ((leaveWorkspace found.id t).windows.any fun win => win.appId = found.appId) =
        true ↔ ∃ other ∈ s.windows.eraseP (·.id = found.id), other.appId = found.appId := by
      rw [hwindows, hwindows', List.any_eq_true]
      exact exists_congr fun other => and_congr_right fun _ => decide_eq_true_iff
    rcases h.running.close h.places.nodup hmem with ⟨hsome, hids⟩ | ⟨hnone, hids⟩
    · rw [if_pos (hstill.mpr hsome)]
      refine ⟨hplaces, hfocused', ?_⟩
      rw [Running, hframe.running, hwindows, hrunning, hwindows']
      exact ⟨h.running.1, hids⟩
    · rw [if_neg fun hsome => hnone (hstill.mp hsome)]
      refine ⟨hplaces.congr rfl rfl rfl rfl rfl rfl, hfocused'.congr rfl rfl rfl rfl, ?_⟩
      show ((leaveWorkspace found.id t).runningApps.erase found.appId).Nodup ∧
        ∀ appId, appId ∈ (leaveWorkspace found.id t).runningApps.erase found.appId ↔
          ∃ other ∈ (leaveWorkspace found.id t).windows, other.appId = appId
      rw [hframe.running, hwindows, hrunning, hwindows']
      exact ⟨h.running.1.erase _, hids⟩

theorem known_scanApps (h : Known s) (resolve : Text → Option AppInfo)
    (hok : Regular down s (.scanApps resolve)) : Known (reresolveWindowIcons down resolve s) := by
  have hids : (reresolveWindowIcons down resolve s).ids = s.ids := by
    show (s.windows.map _).map _ = s.windows.map _
    rw [List.map_map]
    refine List.map_congr_left fun win _ => ?_
    show (reresolve down resolve win).id = win.id
    rw [reresolve]
    split_ifs
    · rfl
    · cases resolve win.appId with
      | none => rfl
      | some info =>
        obtain ⟨_ | canonical, icon⟩ := info
        · rfl
        · dsimp only
          split_ifs <;> rfl
  exact ⟨h.places.congr hids rfl rfl rfl rfl rfl, h.focused.congr hids rfl rfl rfl,
    running_reresolve h.running hok⟩

/-- **The step lemma.** -/
theorem known_step (h : Known s) {e : Event} (hok : Regular down s e) : Known (step down s e) := by
  have hself : Frame s s := ⟨rfl, rfl, rfl, rfl, rfl, rfl⟩
  cases e with
  | appOpened c resolve handle raw => exact known_addRunningApp h c resolve handle raw
  | appClosed handle => exact known_removeRunningApp h handle
  | appFocused handle => exact known_handleAppFocused h handle
  | workspaceCreated handle =>
    exact h.frame (places_onWorkspaceCreated h.places hok) (frame_onWorkspaceCreated handle)
  | workspaceDestroyed c handle =>
    exact h.frame (places_onWorkspaceDestroyed h.places c handle)
      (frame_onWorkspaceDestroyed c handle)
  | workspaceState handle active =>
    exact h.frame (places_onWorkspaceState h.places handle active) ⟨rfl, rfl, rfl, rfl, rfl, rfl⟩
  | outputChanged handle =>
    exact h.frame (h.places.congr rfl rfl rfl rfl rfl rfl) ⟨rfl, rfl, rfl, rfl, rfl, rfl⟩
  | changedIdle c =>
    rw [step]
    split_ifs with hpending
    · have hplaces : Places { s with changedPending := false } :=
        h.places.congr rfl rfl rfl rfl rfl rfl
      obtain ⟨hadopted, windowsOf, orphanWindows, heq⟩ :=
        places_adoptOrphanWindows (c := c) hplaces (hok hpending)
      refine h.frame hadopted ?_
      rw [heq]
      exact ⟨rfl, rfl, rfl, rfl, rfl, rfl⟩
    · exact h
  | followIdle c handle =>
    rw [step]
    split_ifs with hmem
    · obtain ⟨t, ht⟩ : ∃ t, t = { s with following := s.following.erase handle } := ⟨_, rfl⟩
      have hplaces : Places t := by
        rw [ht]
        exact h.places.congr rfl rfl rfl rfl rfl rfl
      have hframe := frame_followWindowMonitor (s := t) c handle
      have hok' := hok (List.contains_iff_mem.mp hmem)
      rw [← ht]
      refine h.frame (places_followWindowMonitor hplaces ?_) ?_
      · rw [ht]
        exact hok'
      · rw [ht] at hframe ⊢
        exact ⟨hframe.ids, hframe.apps, hframe.mru, hframe.log, hframe.running, hframe.nextWindow⟩
    · exact h
  | moveWindow win ws =>
    exact h.frame (places_moveWindow h.places hok) (frame_moveWindow win ws)
  | moveToNew win =>
    exact h.frame (h.places.congr rfl rfl rfl rfl rfl rfl) ⟨rfl, rfl, rfl, rfl, rfl, rfl⟩
  | scanApps resolve => exact known_scanApps down h resolve hok

/-! ### Runs -/

theorem Known.registered (h : Known s) : Registered s := by
  have hmru := getMruWindows_eq h.focused h.places.nodup
  refine ⟨h.places.nodup, fun win hwin => ?_, fun ws hws win hwin => ?_,
    ⟨h.focused.nodup, fun win hwin => (h.focused.mem_iff.mp hwin).2⟩,
    getMruWindows_perm h.focused h.places.nodup, ?_, h.running⟩
  · have hfilter : (s.orphanWindows.filter (· ∈ s.ids)).count win = s.orphanWindows.count win :=
      List.count_filter (decide_eq_true hwin)
    rw [List.count_append, ← hfilter, ← List.count_append, h.places.perm.count_eq]
    exact List.count_eq_one_of_mem h.places.nodup hwin
  · exact (h.places.disjoint (List.mem_flatMap.mpr ⟨ws, hws, hwin⟩)).1
  · rw [hmru, ← h.focused.mru]
    refine congrArg (s.mruWindows ++ ·) (List.filter_congr fun win hwin => ?_)
    refine decide_eq_decide.mpr (not_congr ?_)
    rw [h.focused.mem_iff]
    exact and_iff_left hwin

theorem known_init : Known {} :=
  ⟨⟨List.nodup_nil, List.forall_mem_nil _, List.forall_mem_nil _, List.nodup_nil,
      List.forall_mem_nil _, List.Perm.nil⟩, ⟨List.forall_mem_nil _, rfl⟩, List.nodup_nil, fun _ =>
    ⟨fun h => absurd h List.not_mem_nil, fun ⟨_, h, _⟩ => absurd h List.not_mem_nil⟩⟩

/-- **The windows are registered**, in every run in which no window is moved that waits for a
workspace or was closed, a window that waits finds a workspace, and an id that a window gives up is
not that of another. -/
theorem registered_of_regular {events : List Event}
    (h : Transition.Guarded (step down) (Regular down) {} events) : Registered (run down events) :=
  (h.invariant (P := Known) (fun _ _ hs he => known_step down hs he) known_init).registered

/-- A monitor that shows two workspaces, and another one. -/
def monitors : Compositor where
  windowMonitor _ := some 1
  workspaceGroup handle := if handle = 3 then 1 else 0
  workspaceConnector handle := some (if handle = 3 then ofString "DP-2" else ofString "DP-1")
  connector monitor := some (if monitor = 1 then ofString "DP-2" else ofString "DP-1")
  firstMonitor := some 0

/-- A window on the first of three workspaces, which is sent to the other monitor. -/
def sent : List Event :=
  [.workspaceCreated 1, .workspaceCreated 2, .workspaceCreated 3, .workspaceState 3 true,
    .appOpened { monitors with windowMonitor := fun _ => some 0 } (fun _ => none) 7
      (some (ofString "foot")), .appFocused 7, .outputChanged 7]

theorem registered_sent :
    Registered (run id (sent ++ [.followIdle monitors 7, .workspaceDestroyed monitors 1,
      .changedIdle monitors, .appClosed 7])) :=
  registered_of_regular id (by
    refine ⟨nofun, nofun, nofun, trivial, trivial, trivial, trivial, ?_, trivial, ?_, trivial,
      trivial⟩
    · exact fun _ _ win _ _ _ _ _ => List.not_mem_nil
    · exact fun _ _ win _ hin => absurd hin List.not_mem_nil)

/-- The workspace that the window is on is destroyed before it follows its monitor. -/
theorem not_registered : ¬∀ down events, Registered (run down events) := by
  intro h
  have honce := (h id (sent ++ [.workspaceDestroyed monitors 1, .followIdle monitors 7])).once 0
    (by decide +kernel)
  exact absurd honce (by decide +kernel)

end Registry

end SingularityShell
