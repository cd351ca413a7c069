import Mathlib.Data.List.Nodup
import SingularityShell.Lib.Ascii
import SingularityShell.Lib.Transition
import SingularityShell.Registry.Model

/-!
# The menu of the focused window

The panel shows a menu for the application of the focused window. Its actions minimise, maximise and
snap the window that was focused when the menu was built, and close the windows of the application.
The menu is built again when the application changes.

## Main definitions

* `Apps.cleanString`, `Apps.menuId` — the id of an application, and the one that its menu has
* `Apps.Menu`, `Apps.Menu.closes` — a menu, and the windows that `quit` closes
* `Apps.Desk` — the windows, the focus and the menu
* `Apps.deskStep` — what happens to them
* `Apps.Current` — what is meant
* `Apps.Fitting` — events after which the menu fits

## Main results

* `Apps.current_deskStep` — one event
* `Apps.current_iff` — the menu fits in every state exactly when all events are such
-/

namespace SingularityShell

namespace Apps

open Ascii Transition

/-- The pointer that stands for a window. -/
abbrev Handle := ℕ

/-! ### The id of an application -/

/-- Letters, digits, dots, dashes and underscores. -/
def isIdByte (b : UInt8) : Bool :=
  (97 ≤ b && b ≤ 122) || (65 ≤ b && b ≤ 90) || isDigit b || b = 46 || b = 45 || b = 95

/-- The loop of `clean_string`. A `char` is signed: a byte that is not ASCII is below 32. -/
def cleanLoop : Text → Text
  | [] => []
  | b :: rest =>
    if isIdByte b then b :: cleanLoop rest
    else if b < 32 ∨ 128 ≤ b then []
    else cleanLoop rest

def cleanString (input : Text) : Text := strip (cleanLoop input)

/-- The id that the menu of an application has. -/
def menuId (appId : Text) : Text :=
  let safeId := cleanString appId
  if (ofString ".desktop").isSuffixOf safeId then safeId.take (safeId.length - 8) else safeId

/-- What `quit` asks of a window. -/
def quits (quitAppId appId : Text) : Bool :=
  appId == quitAppId || (quitAppId ++ [46]).isPrefixOf appId || (46 :: quitAppId).isSuffixOf appId

/-! ### The windows, the focus and the menu -/

structure DeskWindow where
  handle : Handle
  appId : Text
  minimized : Bool := false
  deriving DecidableEq

/-- `current_action_group`: what `quit` was built for, and the window the other actions act on. -/
structure Menu where
  quitAppId : Text
  win : Option Handle

structure Desk where
  windows : List DeskWindow := []
  focusedHandle : Option Handle := none
  focusedAppId : Option Text := none
  menuAppId : Text := []
  group : Option Menu := none

/-- The windows that `quit` closes. -/
def Menu.closes (menu : Menu) (windows : List DeskWindow) : List DeskWindow :=
  windows.filter fun win => quits menu.quitAppId win.appId

def Desk.find (s : Desk) (handle : Handle) : Option DeskWindow :=
  s.windows.find? fun win => win.handle = handle

/-- `update_menu_model`, as far as the group of actions -/
def updateMenuModel (appId : Text) (s : Desk) : Desk :=
  if menuId appId = s.menuAppId ∧ s.group.isSome then s
  else { s with group := some ⟨menuId appId, s.focusedHandle⟩, menuAppId := menuId appId }

def notifyDesktopFocused (s : Desk) : Desk :=
  updateMenuModel [] { s with focusedAppId := some [], focusedHandle := none }

def handleAppFocused (handle : Option Handle) (s : Desk) : Desk :=
  let found := handle.bind s.find
  let s := { s with focusedHandle := handle }
  match found with
  | some win =>
    let cleanId := cleanString win.appId
    if some cleanId = s.focusedAppId then s
    else updateMenuModel cleanId { s with focusedAppId := some cleanId }
  | none =>
    if s.focusedAppId ≠ some [] then updateMenuModel [] { s with focusedAppId := some [] } else s

def addRunningApp (resolve : Text → Option Registry.AppInfo) (handle : Handle)
    (raw : Option Text) (s : Desk) : Desk :=
  if (s.find handle).isSome then s
  else { s with windows := s.windows ++ [⟨handle, (Registry.identify resolve raw).1, false⟩] }

def removeRunningApp (handle : Handle) (s : Desk) : Desk :=
  match s.find handle with
  | none => s
  | some _ =>
    let s := { s with windows := s.windows.eraseP fun win => win.handle = handle }
    if s.focusedHandle = some handle then notifyDesktopFocused s else s

def setMinimized (handle : Handle) (minimized : Bool) (win : DeskWindow) : DeskWindow :=
  if win.handle = handle then { win with minimized := minimized } else win

def onAppStateChanged (handle : Handle) (minimized : Bool) (s : Desk) : Desk :=
  match s.find handle with
  | none => s
  | some win =>
    let s := { s with windows := s.windows.map (setMinimized handle minimized) }
    if !win.minimized ∧ minimized ∧ s.focusedHandle = some handle then notifyDesktopFocused s
    else s

inductive DeskEvent where
  | appOpened (handle : Handle) (raw : Option Text)
  | appClosed (handle : Handle)
  | appFocused (handle : Option Handle)
  | desktopFocused
  | appStateChanged (handle : Handle) (minimized : Bool)

variable (resolve : Text → Option Registry.AppInfo)

def deskStep (s : Desk) : DeskEvent → Desk
  | .appOpened handle raw => addRunningApp resolve handle raw s
  | .appClosed handle => removeRunningApp handle s
  | .appFocused handle => handleAppFocused handle s
  | .desktopFocused => notifyDesktopFocused s
  | .appStateChanged handle minimized => onAppStateChanged handle minimized s

/-! ### What is meant -/

/-- The menu is the one of a window: its actions act on the window, and `quit` closes the windows
with the same cleaned id. -/
def Serves (s : Desk) (windows : List DeskWindow) (win : DeskWindow) : Prop :=
  ∃ menu, s.group = some menu ∧ menu.win = some win.handle ∧
    ∀ other ∈ windows, other ∈ menu.closes windows ↔ cleanString other.appId = cleanString win.appId

/-- What is meant: when a window is focused, the menu is the one of that window. -/
def Current (s : Desk) : Prop :=
  ∀ win ∈ s.windows, s.focusedHandle = some win.handle → Serves s s.windows win

/-- The windows that `quit` would close are those with the cleaned id. -/
def Closes (windows : List DeskWindow) (quitAppId : Text) (win : DeskWindow) : Prop :=
  ∀ other ∈ windows, quits quitAppId other.appId = true ↔
    cleanString other.appId = cleanString win.appId

/-- An event after which the menu fits. A window that gets the focus has another menu than the
cached one, or the cached menu was built for it, and the literal test of `quit` tells its
application; so it does when a window is opened. A window that had the focus before it was known has
the menu. -/
def Fitting (s : Desk) : DeskEvent → Prop
  | .appOpened handle raw =>
    (s.find handle).isSome ∨
      (∀ win ∈ s.windows, s.focusedHandle = some win.handle →
        Closes [⟨handle, (Registry.identify resolve raw).1, false⟩] s.menuAppId win) ∧
      (s.focusedHandle = some handle → Serves s
        (s.windows ++ [⟨handle, (Registry.identify resolve raw).1, false⟩])
        ⟨handle, (Registry.identify resolve raw).1, false⟩)
  | .appFocused handle =>
    ∀ win, handle.bind s.find = some win →
      (∀ menu, s.group = some menu → menuId (cleanString win.appId) = s.menuAppId →
        menu.win = handle) ∧
      Closes s.windows (menuId (cleanString win.appId)) win
  | _ => True

/-! ### What holds of the menu -/

variable {s : Desk} {appId : Text} {handle : Handle} {win : DeskWindow}

/-- What holds whatever happens. -/
structure Consistent (s : Desk) : Prop where
  handles : (s.windows.map (·.handle)).Nodup
  menu : ∀ appId, s.focusedAppId = some appId → s.menuAppId = menuId appId ∧ s.group.isSome
  quit : ∀ menu, s.group = some menu → menu.quitAppId = s.menuAppId

@[simp] theorem windows_updateMenuModel : (updateMenuModel appId s).windows = s.windows := by
  rw [updateMenuModel]
  split <;> rfl

@[simp] theorem focusedHandle_updateMenuModel :
    (updateMenuModel appId s).focusedHandle = s.focusedHandle := by
  rw [updateMenuModel]
  split <;> rfl

@[simp] theorem focusedAppId_updateMenuModel :
    (updateMenuModel appId s).focusedAppId = s.focusedAppId := by
  rw [updateMenuModel]
  split <;> rfl

theorem menuAppId_updateMenuModel : (updateMenuModel appId s).menuAppId = menuId appId := by
  rw [updateMenuModel]
  split
  · next h => exact h.1.symm
  · rfl

theorem consistent_updateMenuModel (hhandles : (s.windows.map (·.handle)).Nodup)
    (hquit : ∀ menu, s.group = some menu → menu.quitAppId = s.menuAppId)
    (hid : s.focusedAppId = some appId) : Consistent (updateMenuModel appId s) := by
  refine ⟨by rwa [windows_updateMenuModel], fun other ho => ?_, ?_⟩
  · rw [focusedAppId_updateMenuModel, hid] at ho
    rw [menuAppId_updateMenuModel, Option.some.inj ho]
    refine ⟨rfl, ?_⟩
    rw [updateMenuModel]
    split
    · next h => exact h.2
    · rfl
  · rw [menuAppId_updateMenuModel, updateMenuModel]
    split
    · next h =>
      rw [h.1]
      exact hquit
    · rintro menu hmenu
      rw [← Option.some.inj hmenu]

theorem Consistent.notifyDesktopFocused (h : Consistent s) :
    Consistent (notifyDesktopFocused s) :=
  consistent_updateMenuModel h.handles h.quit rfl

theorem Consistent.windows (h : Consistent s) {windows : List DeskWindow}
    (hw : (windows.map (·.handle)).Nodup) : Consistent { s with windows := windows } :=
  ⟨hw, h.menu, h.quit⟩

theorem Desk.find_eq_some (h : s.find handle = some win) :
    win ∈ s.windows ∧ win.handle = handle :=
  ⟨List.mem_of_find?_eq_some h, by simpa using List.find?_some h⟩

theorem Desk.find_eq_none (h : s.find handle = none) : ∀ win ∈ s.windows, win.handle ≠ handle := by
  simpa [Desk.find] using h

theorem Consistent.find_eq (h : Consistent s) (hwin : win ∈ s.windows) :
    s.find win.handle = some win := by
  obtain ⟨other, ho⟩ : ∃ other, s.find win.handle = some other :=
    Option.isSome_iff_exists.mp (List.find?_isSome.mpr ⟨win, hwin, by simp⟩)
  obtain ⟨hmem, he⟩ := Desk.find_eq_some ho
  rw [ho, List.inj_on_of_nodup_map h.handles hmem hwin he]

theorem handle_setMinimized {minimized : Bool} :
    (setMinimized handle minimized win).handle = win.handle ∧
      (setMinimized handle minimized win).appId = win.appId := by
  rw [setMinimized]
  split
  · exact ⟨rfl, rfl⟩
  · exact ⟨rfl, rfl⟩

theorem consistent_deskStep (h : Consistent s) (e : DeskEvent) :
    Consistent (deskStep resolve s e) := by
  cases e with
  | appOpened handle raw =>
    rw [deskStep, addRunningApp]
    split
    · exact h
    · next hnone =>
      refine h.windows ?_
      have hnew := Desk.find_eq_none (Option.not_isSome_iff_eq_none.mp hnone)
      rw [List.map_append, List.nodup_append]
      refine ⟨h.handles, by simp, ?_⟩
      rintro _ hold _ hnew' rfl
      obtain ⟨win, hwin, he⟩ := List.mem_map.mp hold
      exact hnew win hwin (he.trans (by simpa using hnew'))
  | appClosed handle =>
    rw [deskStep, removeRunningApp]
    split
    · exact h
    · have hleft := h.windows (h.handles.sublist ((List.eraseP_sublist).map _) :
        ((s.windows.eraseP fun win => win.handle = handle).map (·.handle)).Nodup)
      dsimp only
      split
      · exact hleft.notifyDesktopFocused
      · exact hleft
  | appFocused handle =>
    rw [deskStep, handleAppFocused]
    dsimp only
    split
    · split
      · exact ⟨h.handles, h.menu, h.quit⟩
      · exact consistent_updateMenuModel h.handles h.quit rfl
    · split
      · exact consistent_updateMenuModel h.handles h.quit rfl
      · exact ⟨h.handles, h.menu, h.quit⟩
  | desktopFocused => exact h.notifyDesktopFocused
  | appStateChanged handle minimized =>
    rw [deskStep, onAppStateChanged]
    split
    · exact h
    · have hmap : ((s.windows.map (setMinimized handle minimized)).map (·.handle)) =
          s.windows.map (·.handle) := by
        rw [List.map_map]
        exact List.map_congr_left fun _ _ => handle_setMinimized.1
      have hset := h.windows (hmap ▸ h.handles)
      dsimp only
      split
      · exact hset.notifyDesktopFocused
      · exact hset

/-! ### One event -/

theorem serves_iff {windows : List DeskWindow} : Serves s windows win ↔
    ∃ menu, s.group = some menu ∧ menu.win = some win.handle ∧
      Closes windows menu.quitAppId win := by
  refine exists_congr fun menu => and_congr_right fun _ => and_congr_right fun _ => ?_
  refine forall₂_congr fun other ho => ?_
  rw [Menu.closes, List.mem_filter]
  simp [ho]

/-- Nothing is asked of a menu when the focus is not at a window. -/
theorem current_of_unfocused (h : ∀ win ∈ s.windows, s.focusedHandle ≠ some win.handle) :
    Current s :=
  fun win hwin hfocused => absurd hfocused (h win hwin)

theorem current_notifyDesktopFocused : Current (notifyDesktopFocused s) :=
  current_of_unfocused fun _ _ => by simp [notifyDesktopFocused]

theorem Closes.append {windows windows' : List DeskWindow} {quitAppId : Text} :
    Closes (windows ++ windows') quitAppId win ↔
      Closes windows quitAppId win ∧ Closes windows' quitAppId win :=
  List.forall_mem_append

theorem current_appOpened {raw : Option Text} (h : Consistent s) (hc : Current s) :
    Current (deskStep resolve s (.appOpened handle raw)) ↔
      Fitting resolve s (.appOpened handle raw) := by
  rw [deskStep, addRunningApp, Fitting]
  by_cases hknown : (s.find handle).isSome = true
  · rw [if_pos hknown]
    exact iff_of_true hc (.inl hknown)
  · rw [if_neg hknown, or_iff_right hknown]
    obtain ⟨new, hnew⟩ : ∃ new : DeskWindow,
      new = ⟨handle, (Registry.identify resolve raw).1, false⟩ := ⟨_, rfl⟩
    have hhandle : new.handle = handle := by rw [hnew]
    rw [← hnew]
    refine ⟨fun hafter => ⟨fun win hwin hfocused => ?_, fun hfocused => ?_⟩, fun hfit => ?_⟩
    · obtain ⟨menu, hgroup, _, hcloses⟩ :=
        serves_iff.mp (hafter win (List.mem_append_left _ hwin) hfocused)
      rw [← h.quit menu hgroup]
      exact (Closes.append.mp hcloses).2
    · exact hafter new (by simp) (hhandle.symm ▸ hfocused)
    · intro win hwin hfocused
      rcases List.mem_append.mp hwin with hwin | hwin
      · obtain ⟨menu, hgroup, htarget, hcloses⟩ := serves_iff.mp (hc win hwin hfocused)
        refine serves_iff.mpr ⟨menu, hgroup, htarget, Closes.append.mpr ⟨hcloses, ?_⟩⟩
        rw [h.quit menu hgroup]
        exact hfit.1 win hwin hfocused
      · obtain rfl := List.mem_singleton.mp hwin
        exact hfit.2 (hhandle ▸ hfocused)

/-- The menu after a window has got the focus. -/
theorem group_handleAppFocused (h : Consistent s) (hfind : s.find handle = some win) :
    (handleAppFocused (some handle) s).windows = s.windows ∧
      (handleAppFocused (some handle) s).focusedHandle = some handle ∧
      (handleAppFocused (some handle) s).group =
        if menuId (cleanString win.appId) = s.menuAppId ∧ s.group.isSome then s.group
        else some ⟨menuId (cleanString win.appId), some handle⟩ := by
  rw [handleAppFocused, Option.bind_some, hfind]
  dsimp only
  by_cases hsame : some (cleanString win.appId) = s.focusedAppId
  · obtain ⟨hmenu, hsome⟩ := h.menu _ hsame.symm
    rw [if_pos hsame, if_pos ⟨hmenu.symm, hsome⟩]
    exact ⟨rfl, rfl, rfl⟩
  · rw [if_neg hsame, windows_updateMenuModel, focusedHandle_updateMenuModel, updateMenuModel]
    refine ⟨rfl, rfl, ?_⟩
    split
    · rfl
    · rfl

theorem current_appFocused {handle : Option Handle} (h : Consistent s) :
    Current (deskStep resolve s (.appFocused handle)) ↔
      Fitting resolve s (.appFocused handle) := by
  rw [deskStep, Fitting]
  cases hfind : handle.bind s.find with
  | none =>
    refine iff_of_true (current_of_unfocused fun win hwin hfocused => ?_) (by simp)
    rw [handleAppFocused, hfind] at hwin hfocused
    have hw : win ∈ s.windows := by
      dsimp only at hwin
      split at hwin
      · rwa [windows_updateMenuModel] at hwin
      · exact hwin
    have hhandle : handle = some win.handle := by
      dsimp only at hfocused
      split at hfocused
      · rwa [focusedHandle_updateMenuModel] at hfocused
      · exact hfocused
    rw [hhandle, Option.bind_some, h.find_eq hw] at hfind
    cases hfind
  | some win =>
    obtain ⟨handle, rfl, hfound⟩ := Option.bind_eq_some_iff.mp hfind
    obtain ⟨hmem, rfl⟩ := Desk.find_eq_some hfound
    obtain ⟨hwindows, hhandle, hgroup⟩ := group_handleAppFocused h hfound
    have honly : Current (handleAppFocused (some win.handle) s) ↔
        Serves (handleAppFocused (some win.handle) s) s.windows win := by
      rw [Current, hwindows, hhandle]
      refine ⟨fun hafter => hafter win hmem rfl, fun hserves other ho he => ?_⟩
      rw [List.inj_on_of_nodup_map h.handles ho hmem (Option.some.inj he).symm]
      exact hserves
    rw [honly, serves_iff, hgroup]
    simp only [Option.some.injEq, forall_eq']
    by_cases hcached : menuId (cleanString win.appId) = s.menuAppId ∧ s.group.isSome
    · obtain ⟨menu, hmenu⟩ := Option.isSome_iff_exists.mp hcached.2
      have hquit : menu.quitAppId = menuId (cleanString win.appId) :=
        (h.quit menu hmenu).trans hcached.1.symm
      rw [if_pos hcached, hmenu, ← hquit]
      simp only [Option.some.injEq, exists_eq_left', forall_eq']
      rw [hquit, forall_prop_of_true hcached.1]
    · rw [if_neg hcached]
      simp only [Option.some.injEq, exists_eq_left', true_and]
      refine ⟨fun hcloses => ⟨fun menu hmenu hid => ?_, hcloses⟩, And.right⟩
      exact absurd ⟨hid, by rw [hmenu]; rfl⟩ hcached

/-- **One event.** The menu fits afterwards exactly when the event is one after which it does. -/
theorem current_deskStep (e : DeskEvent) (h : Consistent s) (hc : Current s) :
    Current (deskStep resolve s e) ↔ Fitting resolve s e := by
  cases e with
  | appOpened handle raw => exact current_appOpened resolve h hc
  | appClosed handle =>
    refine iff_of_true ?_ trivial
    rw [deskStep, removeRunningApp]
    split
    · exact hc
    · dsimp only
      split
      · exact current_notifyDesktopFocused
      · intro win hwin hfocused
        have hsub : (s.windows.eraseP fun win => win.handle = handle) ⊆ s.windows :=
          List.eraseP_subset
        obtain ⟨menu, hgroup, htarget, hcloses⟩ := serves_iff.mp (hc win (hsub hwin) hfocused)
        exact serves_iff.mpr ⟨menu, hgroup, htarget, fun other ho => hcloses other (hsub ho)⟩
  | appFocused handle => exact current_appFocused resolve h
  | desktopFocused => exact iff_of_true current_notifyDesktopFocused trivial
  | appStateChanged handle minimized =>
    refine iff_of_true ?_ trivial
    rw [deskStep, onAppStateChanged]
    split
    · exact hc
    · dsimp only
      split
      · exact current_notifyDesktopFocused
      · intro win hwin hfocused
        obtain ⟨old, hold, rfl⟩ := List.mem_map.mp hwin
        rw [handle_setMinimized.1] at hfocused
        obtain ⟨menu, hgroup, htarget, hcloses⟩ := serves_iff.mp (hc old hold hfocused)
        refine serves_iff.mpr ⟨menu, hgroup, ?_, fun other ho => ?_⟩
        · rw [handle_setMinimized.1]
          exact htarget
        · obtain ⟨oldOther, holdOther, rfl⟩ := List.mem_map.mp ho
          rw [handle_setMinimized.2, handle_setMinimized.2]
          exact hcloses oldOther holdOther

/-- **The menu is that of the focused window in every state of a run exactly when its events are
such.** -/
theorem current_iff (resolve : Text → Option Registry.AppInfo) (events : List DeskEvent) :
    (∀ events', events' <+: events → Current (run (deskStep resolve) {} events')) ↔
      Guarded (deskStep resolve) (Fitting resolve) {} events := by
  have hinit : Consistent {} := ⟨.nil, by simp, by simp⟩
  refine guarded_iff_forall_prefix (I := Consistent)
    (fun s e h _ => consistent_deskStep resolve h e)
    (fun s e h hc => current_deskStep resolve e h hc) hinit ?_ events
  exact current_of_unfocused (by simp)

/-- From one window of an application to another. -/
theorem not_current : ¬Current (run (deskStep fun _ => none) {}
    [.appOpened 1 (ofString "foot"), .appOpened 2 (ofString "foot"), .appFocused (some 1),
      .appFocused (some 2)]) := by
  intro h
  obtain ⟨menu, hgroup, htarget, _⟩ := h ⟨2, ofString "foot", false⟩ (by decide) (by decide)
  have hstale : menu = ⟨ofString "foot", some 1⟩ := (Option.some.inj hgroup).symm
  rw [hstale] at htarget
  cases htarget

end Apps

end SingularityShell
