import Mathlib.Data.List.Nodup
import SingularityShell.Display.Heads
import SingularityShell.Lib.Lists

/-!
# The monitors mirror the heads

What the compositor announced of its heads, by itself, and what the monitors hold of it after each
`done`. A scale is brought into the range that an output can have. The modes of a head are appended
at every `done`, those that are finished among them, and the state of adaptive sync is told of the
wrong pointer.

## Main definitions

* `Display.Announced` — what the compositor announced of a head
* `Display.Shows`, `Display.Lists`, `Display.ShowsCurrent` — what a monitor holds of it
* `Display.Follows` — how the state depends on what was announced

## Main results

* `Display.replayed_spec` — what copying a head makes of its monitor
* `Display.follows_step` — the step lemma
* `Display.mirrors_done` — after each `done`, the monitors mirror the heads
-/

namespace SingularityShell

namespace Display

/-! ### What is announced -/

structure AnnouncedMode where
  mode : ℕ
  width : ℤ := 0
  height : ℤ := 0
  refresh : ℤ := 0
  live : Bool := true

/-- The values that were announced last, the modes with the newest first, and whether the modes have
been copied. -/
structure Announced where
  head : ℕ
  name : Option Ascii.Text := none
  description : Option Ascii.Text := none
  make : Option Ascii.Text := none
  model : Option Ascii.Text := none
  serialNumber : Option Ascii.Text := none
  size : Option (ℤ × ℤ) := none
  position : Option (ℤ × ℤ) := none
  transform : Option ℤ := none
  scale : Option ℚ := none
  enabled : Option Bool := none
  adaptiveSync : Option ℕ := none
  currentMode : Option ℕ := none
  modes : List AnnouncedMode := []
  listed : Bool := false

def Announced.hear (a : Announced) : HeadEvent → Announced
  | .name name => { a with name := some name }
  | .description description => { a with description := some description }
  | .make make => { a with make := some make }
  | .model model => { a with model := some model }
  | .serialNumber serialNumber => { a with serialNumber := some serialNumber }
  | .physicalSize width height => { a with size := some (width, height) }
  | .mode mode => { a with modes := { mode } :: a.modes }
  | .enabled enabled => { a with enabled := some (decide (enabled ≠ 0)) }
  | .currentMode mode => { a with currentMode := some mode }
  | .position x y => { a with position := some (x, y) }
  | .transform transform => { a with transform := some transform }
  | .scale fixed => { a with scale := some (fixed / 256) }
  | .adaptiveSync state => { a with adaptiveSync := some state }

def AnnouncedMode.hear (mode : AnnouncedMode) : ModeEvent → AnnouncedMode
  | .size width height => { mode with width, height }
  | .refresh refresh => { mode with refresh }
  | .preferred => mode
  | .finished => { mode with live := false }

/-- The data that is kept of a mode. -/
def AnnouncedMode.entry (mode : AnnouncedMode) : ModeEntry :=
  ⟨mode.mode, mode.width, mode.height, mode.refresh, mode.live⟩

/-- The data that is kept of a head. -/
def Announced.headData (a : Announced) : HeadData where
  head := a.head
  name := a.name
  description := a.description
  make := a.make
  model := a.model
  serialNumber := a.serialNumber
  physWidth := (a.size.getD (0, 0)).1
  physHeight := (a.size.getD (0, 0)).2
  x := (a.position.getD (0, 0)).1
  y := (a.position.getD (0, 0)).2
  transform := a.transform.getD 0
  scale := a.scale.getD 0
  enabled := a.enabled.getD false
  adaptiveSyncState := a.adaptiveSync.getD 0
  modes := a.modes.map AnnouncedMode.entry
  currentMode := a.currentMode

/-- An event, as the compositor means it. -/
def announce (announced : List Announced) : Event → List Announced
  | .head id => { head := id } :: announced
  | .onHead id e => announced.map fun a => if a.head = id then a.hear e else a
  | .onMode mode e => announced.map fun a =>
      { a with modes := a.modes.map fun entry => if entry.mode = mode then entry.hear e else entry }
  | .finished id => announced.filter (·.head ≠ id)
  | .done _ => announced.map fun a => { a with listed := a.listed || !a.modes.isEmpty }

def hear (announced : List Announced) (e : Event) : List Announced :=
  if Arrives (announced.map Announced.headData) e then announce announced e else announced

/-- The live heads after the events, the newest first. -/
def announced (events : List Event) : List Announced := Transition.run hear [] events

/-! ### What a monitor holds -/

/-- The monitor holds the values of the head, the scale as `ofScale` has it. -/
structure Shows (ofScale : ℚ → ℚ) (m : Monitor) (a : Announced) : Prop where
  name : ∀ name, a.name = some name → m.name = some name
  description : ∀ description, a.description = some description → m.description = some description
  make : ∀ make, a.make = some make → m.make = some make
  model : ∀ model, a.model = some model → m.model = some model
  serial : ∀ serial, a.serialNumber = some serial → m.serial = some serial
  size : ∀ size, a.size = some size → (m.physWidth, m.physHeight) = size
  position : ∀ position, a.position = some position → (m.x, m.y) = position
  transform : ∀ transform, a.transform = some transform → m.transform = transform
  scale : ∀ scale, a.scale = some scale → m.scale = ofScale scale
  enabled : ∀ enabled, a.enabled = some enabled → m.enabled = enabled

/-- The state of adaptive sync is that of the head. -/
def ShowsAdaptiveSync (m : Monitor) (a : Announced) : Prop :=
  m.vrrSupported = a.adaptiveSync.isSome ∧ m.vrrEnabled = decide (a.adaptiveSync = some 1)

/-- The list of the modes holds each live mode once, and nothing else. -/
def Lists (m : Monitor) (a : Announced) : Prop :=
  (m.modes.map fun mode => (mode.width, mode.height, mode.refresh)).Perm
    ((a.modes.filter (·.live)).map fun mode => (mode.width, mode.height, mode.refresh))

/-- The current mode is the one that was announced last. -/
def ShowsCurrent (m : Monitor) (a : Announced) : Prop :=
  (a.currentMode = none → m.currentMode = none) ∧
  ∀ mode ∈ a.modes, a.currentMode = some mode.mode →
    m.currentMode.map (fun mode => (mode.width, mode.height, mode.refresh)) =
      some (mode.width, mode.height, mode.refresh)

/-- There is one monitor for each head, in the order in which the heads were announced. -/
def OneToOne (monitors : List Monitor) (announced : List Announced) : Prop :=
  monitors.map (·.headHandle) = (announced.map fun a => Pointer.head a.head).reverse ∧
    (monitors.map (·.headHandle)).Nodup

/-! ### Copying a head -/

/-- Only the monitor with the handle is changed. -/
def onHandle (handle : Pointer) (f : Monitor → Monitor) (m : Monitor) : Monitor :=
  if m.headHandle = handle then f m else m

theorem map_onHandle_eq_self {handle : Pointer} {monitors : List Monitor} (f : Monitor → Monitor)
    (h : handle ∉ monitors.map (·.headHandle)) : monitors.map (onHandle handle f) = monitors := by
  have hid : monitors.map (onHandle handle f) = monitors.map id := by
    refine List.map_congr_left fun m hm => ?_
    rw [onHandle, if_neg fun heq => h (List.mem_map.mpr ⟨m, hm, heq⟩)]
    rfl
  rw [hid, List.map_id]

theorem withMonitor_eq_map {monitors : List Monitor} (h : (monitors.map (·.headHandle)).Nodup)
    (handle : Pointer) (f : Monitor → Monitor) :
    withMonitor handle f monitors = monitors.map (onHandle handle f) := by
  induction monitors with
  | nil => rfl
  | cons m monitors ih =>
    obtain ⟨hm, hrest⟩ := List.nodup_cons.mp h
    rw [withMonitor, List.map_cons, onHandle]
    split_ifs with heq
    · rw [map_onHandle_eq_self f (heq ▸ hm)]
    · rw [ih hrest]

def Monitor.update (hd : HeadData) (m : Monitor) : Monitor :=
  { m with
    name := hd.name.orElse fun _ => m.name
    description := hd.description.orElse fun _ => m.description
    make := hd.make.orElse fun _ => m.make
    model := hd.model.orElse fun _ => m.model
    serial := hd.serialNumber.orElse fun _ => m.serial
    physWidth := hd.physWidth
    physHeight := hd.physHeight
    x := hd.x
    y := hd.y
    transform := hd.transform
    enabled := hd.enabled
    scale := clampScale hd.scale }

def Monitor.addMode (mode : Mode) (m : Monitor) : Monitor :=
  { m with
    modes := m.modes ++ [mode]
    currentMode := if mode.preferred ∧ m.currentMode = none then some mode else m.currentMode }

def Monitor.setCurrentMode (width height refresh : ℤ) (m : Monitor) : Monitor :=
  match m.modes.find? fun mode =>
    mode.width = width && mode.height = height && mode.refresh = refresh with
  | some mode => { m with currentMode := some mode }
  | none => m

/-- A mode of a head, as it is appended. -/
def HeadData.modeOf (hd : HeadData) (entry : ModeEntry) : Mode :=
  ⟨entry.width, entry.height, entry.refresh, decide (hd.currentMode = some entry.mode)⟩

/-- What becomes of the monitor when a mode of its head is copied. -/
def Monitor.replayMode (hd : HeadData) (m : Monitor) (entry : ModeEntry) : Monitor :=
  let added := m.addMode (hd.modeOf entry)
  if hd.currentMode = some entry.mode then
    added.setCurrentMode entry.width entry.height entry.refresh
  else added

/-- What becomes of the monitor when its head is copied. -/
def Monitor.replay (hd : HeadData) (m : Monitor) : Monitor :=
  hd.modes.foldl (Monitor.replayMode hd) (m.update hd)

theorem setCurrentMode_handle (width height refresh : ℤ) (m : Monitor) :
    (m.setCurrentMode width height refresh).headHandle = m.headHandle := by
  rw [Monitor.setCurrentMode]
  split <;> rfl

theorem handleSetCurrentMode_eq_map {monitors : List Monitor}
    (h : (monitors.map (·.headHandle)).Nodup) (handle : Pointer) (width height refresh : ℤ) :
    handleSetCurrentMode handle width height refresh monitors =
      monitors.map (onHandle handle (Monitor.setCurrentMode width height refresh)) := by
  induction monitors with
  | nil => rfl
  | cons m monitors ih =>
    obtain ⟨hm, hrest⟩ := List.nodup_cons.mp h
    rw [handleSetCurrentMode, List.map_cons, onHandle]
    by_cases heq : m.headHandle = handle
    · rw [if_pos heq, if_pos heq, ih hrest, map_onHandle_eq_self _ (heq ▸ hm),
        Monitor.setCurrentMode]
      cases m.modes.find? fun mode =>
        mode.width = width && mode.height = height && mode.refresh = refresh <;> rfl
    · rw [if_neg heq, if_neg heq, ih hrest]

theorem map_onHandle_onHandle {handle : Pointer} {f g : Monitor → Monitor}
    (hg : ∀ m, (g m).headHandle = m.headHandle) (monitors : List Monitor) :
    (monitors.map (onHandle handle g)).map (onHandle handle f) =
      monitors.map (onHandle handle fun m => f (g m)) := by
  rw [List.map_map]
  refine List.map_congr_left fun m _ => ?_
  show onHandle handle f (onHandle handle g m) = _
  rw [onHandle, onHandle, onHandle]
  split_ifs with heq hchanged
  · rfl
  · exact absurd ((hg m).trans heq) hchanged
  · rfl

theorem map_handle_onHandle {handle : Pointer} {f : Monitor → Monitor}
    (hf : ∀ m, (f m).headHandle = m.headHandle) (monitors : List Monitor) :
    (monitors.map (onHandle handle f)).map (·.headHandle) = monitors.map (·.headHandle) := by
  rw [List.map_map]
  refine List.map_congr_left fun m _ => ?_
  show (onHandle handle f m).headHandle = m.headHandle
  rw [onHandle]
  split_ifs
  · exact hf m
  · rfl

theorem replayMode_handle (hd : HeadData) (m : Monitor) (entry : ModeEntry) :
    (m.replayMode hd entry).headHandle = m.headHandle := by
  rw [Monitor.replayMode]
  split_ifs
  · exact setCurrentMode_handle _ _ _ _
  · rfl

theorem foldl_replayMode_handle (hd : HeadData) (entries : List ModeEntry) (m : Monitor) :
    (entries.foldl (Monitor.replayMode hd) m).headHandle = m.headHandle := by
  induction entries generalizing m with
  | nil => rfl
  | cons entry entries ih => exact (ih _).trans (replayMode_handle hd m entry)

theorem replay_handle (hd : HeadData) (m : Monitor) : (m.replay hd).headHandle = m.headHandle :=
  foldl_replayMode_handle hd hd.modes (m.update hd)

/-- A mode is copied into the monitor of its head. -/
theorem replayMode_eq_map {monitors : List Monitor} (h : (monitors.map (·.headHandle)).Nodup)
    (hd : HeadData) (entry : ModeEntry) :
    replayMode hd monitors entry =
      monitors.map (onHandle (.head hd.head) fun m => m.replayMode hd entry) := by
  have hadd (preferred : Bool) :
      handleAddMode (.head hd.head) entry.width entry.height entry.refresh preferred monitors =
        monitors.map (onHandle (.head hd.head)
          (Monitor.addMode ⟨entry.width, entry.height, entry.refresh, preferred⟩)) :=
    withMonitor_eq_map h _ _
  rw [replayMode]
  by_cases hcurrent : hd.currentMode = some entry.mode
  · rw [if_pos hcurrent, hadd, handleSetCurrentMode_eq_map, map_onHandle_onHandle]
    · refine congrArg (fun f => monitors.map (onHandle _ f)) (funext fun m => ?_)
      rw [Monitor.replayMode, if_pos hcurrent, HeadData.modeOf, decide_eq_true hcurrent]
    · exact fun _ => rfl
    · rw [map_handle_onHandle]
      · exact h
      · exact fun _ => rfl
  · rw [if_neg hcurrent, hadd]
    refine congrArg (fun f => monitors.map (onHandle _ f)) (funext fun m => ?_)
    rw [Monitor.replayMode, if_neg hcurrent, HeadData.modeOf, decide_eq_false hcurrent]

/-- A head is copied into its monitor. -/
theorem replayHead_eq_map {monitors : List Monitor} (h : (monitors.map (·.headHandle)).Nodup)
    (hd : HeadData) :
    replayHead monitors hd = monitors.map (onHandle (.head hd.head) (Monitor.replay hd)) := by
  have hfold : ∀ (entries : List ModeEntry) (f : Monitor → Monitor),
      (∀ m, (f m).headHandle = m.headHandle) →
      entries.foldl (replayMode hd) (monitors.map (onHandle (.head hd.head) f)) =
        monitors.map (onHandle (.head hd.head) fun m =>
          entries.foldl (Monitor.replayMode hd) (f m)) := by
    intro entries
    induction entries with
    | nil => exact fun f _ => rfl
    | cons entry entries ih =>
      intro f hf
      have hnodup : ((monitors.map (onHandle (.head hd.head) f)).map (·.headHandle)).Nodup := by
        rw [map_handle_onHandle hf]
        exact h
      rw [List.foldl_cons, replayMode_eq_map hnodup, map_onHandle_onHandle hf]
      exact ih (fun m => (f m).replayMode hd entry) fun m => (replayMode_handle hd _ _).trans (hf m)
  have hupdate : handleUpdateHeadInfo (.head hd.head) hd.make hd.model hd.serialNumber
      (handleUpdateHead (.head hd.head) hd.name hd.description hd.physWidth hd.physHeight hd.x hd.y
        hd.transform hd.scale hd.enabled monitors) =
      monitors.map (onHandle (.head hd.head) (Monitor.update hd)) := by
    rw [handleUpdateHead, withMonitor_eq_map h, handleUpdateHeadInfo, withMonitor_eq_map,
      map_onHandle_onHandle]
    · rfl
    · exact fun _ => rfl
    · rw [map_handle_onHandle]
      · exact h
      · exact fun _ => rfl
  rw [replayHead, hupdate]
  exact hfold hd.modes (Monitor.update hd) fun _ => rfl

/-! ### What a monitor holds after the copy -/

/-- The copy of the modes changes the list of the modes and the current mode only. -/
theorem foldl_replayMode (hd : HeadData) (entries : List ModeEntry) (m : Monitor) :
    ∃ currentMode, entries.foldl (Monitor.replayMode hd) m =
      { m with modes := m.modes ++ entries.map hd.modeOf, currentMode } := by
  induction entries generalizing m with
  | nil => exact ⟨m.currentMode, by rw [List.map_nil, List.append_nil]; rfl⟩
  | cons entry entries ih =>
    obtain ⟨first, hfirst⟩ : ∃ currentMode, m.replayMode hd entry =
        { m with modes := m.modes ++ [hd.modeOf entry], currentMode } := by
      rw [Monitor.replayMode]
      split_ifs
      · rw [Monitor.setCurrentMode]
        split
        · exact ⟨_, rfl⟩
        · exact ⟨_, rfl⟩
      · exact ⟨_, rfl⟩
    obtain ⟨last, hlast⟩ := ih (m.replayMode hd entry)
    refine ⟨last, ?_⟩
    rw [List.foldl_cons, hlast, hfirst, List.map_cons, List.append_assoc]
    rfl

/-- A mode that is not current leaves the current mode as it is. -/
theorem currentMode_replayMode_of_ne {hd : HeadData} {entry : ModeEntry}
    (h : hd.currentMode ≠ some entry.mode) (m : Monitor) :
    (m.replayMode hd entry).currentMode = m.currentMode := by
  rw [Monitor.replayMode, if_neg h, Monitor.addMode, HeadData.modeOf]
  dsimp only
  rw [decide_eq_false h, if_neg fun hc => Bool.false_ne_true hc.1]

theorem currentMode_foldl_of_ne {hd : HeadData} {entries : List ModeEntry}
    (h : ∀ entry ∈ entries, hd.currentMode ≠ some entry.mode) (m : Monitor) :
    (entries.foldl (Monitor.replayMode hd) m).currentMode = m.currentMode := by
  induction entries generalizing m with
  | nil => rfl
  | cons entry entries ih =>
    obtain ⟨hentry, hentries⟩ := List.forall_mem_cons.mp h
    exact (ih hentries _).trans (currentMode_replayMode_of_ne hentry m)

/-- The mode that was appended last is found, or one of the same size and refresh. -/
theorem currentMode_replayMode {hd : HeadData} {entry : ModeEntry}
    (h : hd.currentMode = some entry.mode) (m : Monitor) :
    (m.replayMode hd entry).currentMode.map (fun mode => (mode.width, mode.height, mode.refresh)) =
      some (entry.width, entry.height, entry.refresh) := by
  rw [Monitor.replayMode, if_pos h, Monitor.setCurrentMode]
  split
  · next mode hfound =>
    have hmode := List.find?_some hfound
    rw [Bool.and_eq_true, Bool.and_eq_true, decide_eq_true_eq, decide_eq_true_eq,
      decide_eq_true_eq] at hmode
    obtain ⟨⟨hwidth, hheight⟩, hrefresh⟩ := hmode
    show some (mode.width, mode.height, mode.refresh) = _
    rw [hwidth, hheight, hrefresh]
  · next hnone =>
    have hmem : hd.modeOf entry ∈ (m.addMode (hd.modeOf entry)).modes :=
      List.mem_append_right _ List.mem_cons_self
    refine absurd (List.find?_eq_none.mp hnone _ hmem) (not_not.mpr ?_)
    rw [HeadData.modeOf, decide_eq_true rfl, decide_eq_true rfl, decide_eq_true rfl]
    rfl

theorem currentMode_foldl {hd : HeadData} {entries : List ModeEntry}
    (hnodup : (entries.map (·.mode)).Nodup) {entry : ModeEntry} (hentry : entry ∈ entries)
    (h : hd.currentMode = some entry.mode) (m : Monitor) :
    (entries.foldl (Monitor.replayMode hd) m).currentMode.map
        (fun mode => (mode.width, mode.height, mode.refresh)) =
      some (entry.width, entry.height, entry.refresh) := by
  induction entries generalizing m with
  | nil => cases hentry
  | cons first entries ih =>
    obtain ⟨hfirst, hnodup⟩ := List.nodup_cons.mp hnodup
    rcases List.mem_cons.mp hentry with rfl | hrest
    · rw [List.foldl_cons, currentMode_foldl_of_ne]
      · exact currentMode_replayMode h m
      · intro other hother hcurrent
        refine hfirst (List.mem_map.mpr ⟨other, hother, ?_⟩)
        exact Option.some.inj (hcurrent.symm.trans h)
    · exact ih hnodup hrest _

/-- **What copying a head makes of its monitor.** -/
theorem replayed_spec {a : Announced} (hnodup : (a.modes.map (·.mode)).Nodup) (m : Monitor) :
    Shows clampScale (m.replay a.headData) a ∧
    (m.replay a.headData).modes = m.modes ++ a.headData.modes.map a.headData.modeOf ∧
    (m.replay a.headData).vrrSupported = m.vrrSupported ∧
    (m.replay a.headData).vrrEnabled = m.vrrEnabled ∧
    (a.currentMode = none → (m.replay a.headData).currentMode = m.currentMode) ∧
    ∀ mode ∈ a.modes, a.currentMode = some mode.mode →
      (m.replay a.headData).currentMode.map (fun mode => (mode.width, mode.height, mode.refresh)) =
        some (mode.width, mode.height, mode.refresh) := by
  obtain ⟨currentMode, hreplay⟩ :=
    foldl_replayMode a.headData a.headData.modes (m.update a.headData)
  have hreplay' : m.replay a.headData = _ := hreplay
  refine ⟨?_, ?_, ?_, ?_, fun hnone => ?_, fun mode hmode hcurrent => ?_⟩
  · rw [hreplay']
    constructor
    · intro name h
      exact congrArg (Option.orElse · fun _ => m.name) h
    · intro description h
      exact congrArg (Option.orElse · fun _ => m.description) h
    · intro make h
      exact congrArg (Option.orElse · fun _ => m.make) h
    · intro model h
      exact congrArg (Option.orElse · fun _ => m.model) h
    · intro serial h
      exact congrArg (Option.orElse · fun _ => m.serial) h
    · intro size h
      exact congrArg (fun size : Option (ℤ × ℤ) => ((size.getD (0, 0)).1, (size.getD (0, 0)).2)) h
    · intro position h
      exact congrArg (fun size : Option (ℤ × ℤ) => ((size.getD (0, 0)).1, (size.getD (0, 0)).2)) h
    · intro transform h
      exact congrArg (Option.getD · 0) h
    · intro scale h
      exact congrArg (fun scale : Option ℚ => clampScale (scale.getD 0)) h
    · intro enabled h
      exact congrArg (Option.getD · false) h
  · rw [hreplay']
    rfl
  · rw [hreplay']
    rfl
  · rw [hreplay']
    rfl
  · refine currentMode_foldl_of_ne (fun entry _ hentry => ?_) _
    exact absurd (hnone.symm.trans hentry) (Option.some_ne_none _).symm
  · have hmodes : (a.headData.modes.map (·.mode)).Nodup := by
      show ((a.modes.map AnnouncedMode.entry).map (·.mode)).Nodup
      rw [List.map_map]
      exact hnodup
    exact currentMode_foldl hmodes (List.mem_map_of_mem hmode) hcurrent _

/-! ### Copying all heads -/

theorem foldl_replayHead {monitors : List Monitor} (h : (monitors.map (·.headHandle)).Nodup)
    (heads : List HeadData) :
    heads.foldl replayHead monitors = monitors.map fun m =>
      heads.foldl (fun m hd => onHandle (.head hd.head) (Monitor.replay hd) m) m := by
  induction heads generalizing monitors with
  | nil => exact (List.map_id _).symm
  | cons hd heads ih =>
    rw [List.foldl_cons, replayHead_eq_map h, ih, List.map_map]
    · rfl
    · rw [map_handle_onHandle (replay_handle hd)]
      exact h

theorem foldl_onHandle_of_ne {heads : List HeadData} {m : Monitor}
    (h : ∀ hd ∈ heads, m.headHandle ≠ .head hd.head) :
    heads.foldl (fun m hd => onHandle (.head hd.head) (Monitor.replay hd) m) m = m := by
  induction heads with
  | nil => rfl
  | cons hd heads ih =>
    obtain ⟨hhd, hheads⟩ := List.forall_mem_cons.mp h
    rw [List.foldl_cons, onHandle, if_neg hhd]
    exact ih hheads

/-- Of all heads that are copied, a monitor is given its own. -/
theorem foldl_onHandle {heads : List HeadData} (hnodup : (heads.map (·.head)).Nodup) {hd : HeadData}
    (hhd : hd ∈ heads) {m : Monitor} (hm : m.headHandle = .head hd.head) :
    heads.foldl (fun m hd => onHandle (.head hd.head) (Monitor.replay hd) m) m = m.replay hd := by
  induction heads with
  | nil => cases hhd
  | cons first heads ih =>
    obtain ⟨hfirst, hnodup⟩ := List.nodup_cons.mp hnodup
    rw [List.foldl_cons, onHandle]
    rcases List.mem_cons.mp hhd with rfl | hrest
    · rw [if_pos hm]
      refine foldl_onHandle_of_ne fun other hother heq => ?_
      rw [replay_handle, hm] at heq
      exact hfirst (List.mem_map.mpr ⟨other, hother, (Pointer.head.inj heq).symm⟩)
    · rw [if_neg, ih hnodup hrest]
      intro heq
      rw [hm] at heq
      exact hfirst (List.mem_map.mpr ⟨hd, hrest, Pointer.head.inj heq⟩)

/-! ### The relation -/

/-- What a monitor holds that is not copied of its head at every `done`. -/
structure Blank (m : Monitor) (a : Announced) : Prop where
  vrrSupported : m.vrrSupported = false
  vrrEnabled : m.vrrEnabled = false
  modes : a.listed = false → m.modes = []
  currentMode : a.currentMode = none → m.currentMode = none

/-- How the state depends on what was announced. -/
structure Follows (announced : List Announced) (s : State) : Prop where
  heads : s.heads = announced.map Announced.headData
  oneToOne : OneToOne s.monitors announced
  modes : ∀ a ∈ announced, (a.modes.map (·.mode)).Nodup
  blank : ∀ m ∈ s.monitors, ∀ a ∈ announced, m.headHandle = .head a.head → Blank m a

variable {A : List Announced} {s : State}

theorem OneToOne.nodup {monitors : List Monitor} (h : OneToOne monitors A) :
    (A.map (·.head)).Nodup := by
  have hnodup := h.2
  rw [h.1, List.nodup_reverse] at hnodup
  refine List.Nodup.of_map Pointer.head ?_
  rw [List.map_map]
  exact hnodup

/-- Each monitor has its head. -/
theorem OneToOne.exists_head {monitors : List Monitor} (h : OneToOne monitors A) {m : Monitor}
    (hm : m ∈ monitors) : ∃ a ∈ A, m.headHandle = .head a.head := by
  have hmem : m.headHandle ∈ monitors.map (·.headHandle) := List.mem_map_of_mem hm
  rw [h.1, List.mem_reverse] at hmem
  obtain ⟨a, ha, heq⟩ := List.mem_map.mp hmem
  exact ⟨a, ha, heq.symm⟩

/-- What the heads and the monitors are known by does not change. -/
theorem OneToOne.congr {monitors monitors' : List Monitor} {A' : List Announced}
    (h : OneToOne monitors A)
    (hmonitors : monitors'.map (·.headHandle) = monitors.map (·.headHandle))
    (hA : A'.map (·.head) = A.map (·.head)) : OneToOne monitors' A' := by
  refine ⟨?_, hmonitors ▸ h.2⟩
  have hhead (A : List Announced) :
      (A.map fun a => Pointer.head a.head) = (A.map (·.head)).map Pointer.head := by
    rw [List.map_map]
    rfl
  rw [hmonitors, h.1, hhead, hhead, hA]

/-! ### The events -/

theorem follows_head (h : Follows A s) {id : ℕ} (hnew : ∀ a ∈ A, a.head ≠ id) :
    Follows ({ head := id } :: A) (outputManagerHead id s) := by
  have hfree : Pointer.head id ∉ s.monitors.map (·.headHandle) := by
    intro hmem
    obtain ⟨m, hm, heq⟩ := List.mem_map.mp hmem
    obtain ⟨a, ha, hhead⟩ := h.oneToOne.exists_head hm
    exact hnew a ha (Pointer.head.inj (hhead.symm.trans heq))
  refine ⟨congrArg _ h.heads, ⟨?_, ?_⟩, ?_, fun m hm a ha heq => ?_⟩
  · show (s.monitors ++ [({ headHandle := .head id } : Monitor)]).map (·.headHandle) = _
    rw [List.map_append, h.oneToOne.1]
    exact List.reverse_cons.symm
  · show ((s.monitors ++ [({ headHandle := .head id } : Monitor)]).map (·.headHandle)).Nodup
    rw [List.map_append]
    refine h.oneToOne.2.append (List.nodup_singleton _) ?_
    rw [List.map_cons, List.map_nil, List.disjoint_singleton]
    exact hfree
  · exact List.forall_mem_cons.mpr ⟨List.nodup_nil, h.modes⟩
  · rcases List.mem_append.mp hm with hold | hlast
    · rcases List.mem_cons.mp ha with rfl | hrest
      · exact absurd (List.mem_map.mpr ⟨m, hold, heq⟩) hfree
      · exact h.blank m hold a hrest heq
    · rw [List.mem_singleton.mp hlast] at heq ⊢
      rcases List.mem_cons.mp ha with rfl | hrest
      · exact ⟨rfl, rfl, fun _ => rfl, fun _ => rfl⟩
      · exact absurd (Pointer.head.inj heq).symm (hnew a hrest)

theorem headData_hear (a : Announced) (e : HeadEvent) :
    (a.hear e).headData = a.headData.handle e := by
  cases e <;> rfl

theorem entry_hear (mode : AnnouncedMode) (e : ModeEvent) :
    (mode.hear e).entry = mode.entry.handle e := by
  cases e <;> rfl

theorem follows_onHead (h : Follows A s) {id : ℕ} {e : HeadEvent}
    (hmode : ∀ mode, e = .mode mode → ∀ a ∈ A, ∀ known ∈ a.modes, known.mode ≠ mode) :
    Follows (announce A (.onHead id e)) (handle s (.onHead id e)) := by
  have hmonitors : tellAdaptiveSync id e s.monitors = s.monitors := by
    cases e with
    | adaptiveSync state =>
      have hother : Pointer.headData id ∉ s.monitors.map (·.headHandle) := by
        rw [h.oneToOne.1, List.mem_reverse, List.mem_map]
        rintro ⟨a, -, ha⟩
        cases ha
      exact (withMonitor_eq_map h.oneToOne.2 _ _).trans (map_onHandle_eq_self _ hother)
    | _ => rfl
  have hhead (a : Announced) : (if a.head = id then a.hear e else a).head = a.head := by
    split_ifs
    · cases e <;> rfl
    · rfl
  have hA : (announce A (.onHead id e)).map (·.head) = A.map (·.head) := by
    rw [announce, List.map_map]
    exact List.map_congr_left fun a _ => hhead a
  refine ⟨?_, h.oneToOne.congr (congrArg _ hmonitors) hA,
    fun a' ha' => ?_, fun m hm a' ha' heq => ?_⟩
  · show s.heads.map _ = (A.map _).map Announced.headData
    rw [h.heads, List.map_map, List.map_map]
    refine List.map_congr_left fun a _ => ?_
    show (if a.head = id then a.headData.handle e else a.headData) =
      Announced.headData (if a.head = id then a.hear e else a)
    split_ifs
    · exact (headData_hear a e).symm
    · rfl
  · obtain ⟨a, ha, rfl⟩ := List.mem_map.mp ha'
    split_ifs
    · cases e with
      | mode mode =>
        refine List.nodup_cons.mpr ⟨fun hmem => ?_, h.modes a ha⟩
        obtain ⟨known, hknown, heq⟩ := List.mem_map.mp hmem
        exact hmode mode rfl a ha known hknown heq
      | _ => exact h.modes a ha
    · exact h.modes a ha
  · obtain ⟨a, ha, rfl⟩ := List.mem_map.mp ha'
    have hblank := h.blank m (hmonitors ▸ hm) a ha (by rw [heq, hhead])
    split_ifs
    · refine ⟨hblank.vrrSupported, hblank.vrrEnabled, fun hlisted => hblank.modes ?_, fun hnone =>
        hblank.currentMode ?_⟩
      · cases e <;> exact hlisted
      · cases e with
        | currentMode mode => cases hnone
        | _ => exact hnone
    · exact hblank

theorem follows_onMode (h : Follows A s) (mode : ℕ) (e : ModeEvent) :
    Follows (announce A (.onMode mode e)) (handle s (.onMode mode e)) := by
  have hA : (announce A (.onMode mode e)).map (·.head) = A.map (·.head) := by
    rw [announce, List.map_map]
    rfl
  refine ⟨?_, h.oneToOne.congr rfl hA, fun a' ha' => ?_, fun m hm a' ha' heq => ?_⟩
  · show s.heads.map _ = (A.map _).map Announced.headData
    rw [h.heads, List.map_map, List.map_map]
    refine List.map_congr_left fun a _ => ?_
    have hmodes : (a.modes.map AnnouncedMode.entry).map
          (fun entry => if entry.mode = mode then entry.handle e else entry) =
        (a.modes.map fun known => if known.mode = mode then known.hear e else known).map
          AnnouncedMode.entry := by
      rw [List.map_map, List.map_map]
      refine List.map_congr_left fun known _ => ?_
      show (if known.mode = mode then known.entry.handle e else known.entry) =
        AnnouncedMode.entry (if known.mode = mode then known.hear e else known)
      split_ifs
      · exact (entry_hear known e).symm
      · rfl
    exact congrArg (fun modes => { a.headData with modes }) hmodes
  · obtain ⟨a, ha, rfl⟩ := List.mem_map.mp ha'
    have hmodes : (a.modes.map fun known =>
        if known.mode = mode then known.hear e else known).map (·.mode) = a.modes.map (·.mode) := by
      rw [List.map_map]
      refine List.map_congr_left fun known _ => ?_
      show (if known.mode = mode then known.hear e else known).mode = known.mode
      split_ifs
      · cases e <;> rfl
      · rfl
    rw [hmodes]
    exact h.modes a ha
  · obtain ⟨a, ha, rfl⟩ := List.mem_map.mp ha'
    have hblank := h.blank m hm a ha heq
    exact ⟨hblank.vrrSupported, hblank.vrrEnabled, hblank.modes, hblank.currentMode⟩

theorem follows_finished (h : Follows A s) (id : ℕ) :
    Follows (A.filter (·.head ≠ id)) (headHandleFinished id s) := by
  have hmonitors : (headHandleFinished id s).monitors =
      s.monitors.filter (·.headHandle ≠ Pointer.head id) :=
        Lists.eraseP_eq_filter Monitor.headHandle h.oneToOne.2 _
  refine ⟨?_, ⟨?_, ?_⟩, fun a ha => h.modes a (List.mem_filter.mp ha).1, fun m hm a ha heq => ?_⟩
  · show s.heads.eraseP (·.head = id) = _
    rw [h.heads, Lists.eraseP_eq_filter HeadData.head, List.filter_map]
    · rfl
    · rw [List.map_map]
      exact h.oneToOne.nodup
  · have hfilter : (s.monitors.filter (·.headHandle ≠ Pointer.head id)).map (·.headHandle) =
        (s.monitors.map (·.headHandle)).filter (· ≠ Pointer.head id) := by
      rw [List.filter_map]
      rfl
    rw [hmonitors, hfilter, h.oneToOne.1, List.filter_reverse, List.filter_map]
    refine congrArg (fun l : List Announced => (l.map fun a => Pointer.head a.head).reverse)
      (List.filter_congr fun a _ => ?_)
    exact decide_eq_decide.mpr (not_congr ⟨Pointer.head.inj, congrArg _⟩)
  · rw [hmonitors]
    exact h.oneToOne.2.sublist (List.filter_sublist.map _)
  · rw [hmonitors] at hm
    exact h.blank m (List.mem_filter.mp hm).1 a (List.mem_filter.mp ha).1 heq

/-- After the copy, each monitor is what the copy of its head makes of it. -/
theorem Follows.monitors_done (h : Follows A s) (serial : ℕ) :
    (outputManagerDone serial s).monitors = s.monitors.map fun m =>
      (A.map Announced.headData).foldl (fun m hd => onHandle (.head hd.head) (Monitor.replay hd) m)
        m := by
  have hserial : (handleSetSerial serial s).heads = s.heads ∧
      (handleSetSerial serial s).monitors = s.monitors := by
    rw [handleSetSerial]
    split_ifs <;> exact ⟨rfl, rfl⟩
  rw [outputManagerDone]
  dsimp only
  rw [hserial.1, hserial.2, h.heads]
  exact foldl_replayHead h.oneToOne.2 _

theorem Follows.replayed (h : Follows A s) {m : Monitor} {a : Announced} (ha : a ∈ A)
    (heq : m.headHandle = .head a.head) :
    (A.map Announced.headData).foldl
        (fun m hd => onHandle (.head hd.head) (Monitor.replay hd) m) m =
      m.replay a.headData := by
  refine foldl_onHandle ?_ (List.mem_map_of_mem ha) heq
  rw [List.map_map]
  exact h.oneToOne.nodup

theorem Follows.handle_replayed (h : Follows A s) {m : Monitor} (hm : m ∈ s.monitors) :
    ((A.map Announced.headData).foldl
      (fun m hd => onHandle (.head hd.head) (Monitor.replay hd) m) m).headHandle =
        m.headHandle := by
  obtain ⟨a, ha, heq⟩ := h.oneToOne.exists_head hm
  rw [h.replayed ha heq, replay_handle]

theorem Follows.oneToOne_done (h : Follows A s) (serial : ℕ) :
    OneToOne (outputManagerDone serial s).monitors A := by
  refine h.oneToOne.congr ?_ rfl
  rw [h.monitors_done, List.map_map]
  exact List.map_congr_left fun m hm => h.handle_replayed hm

/-- The monitor of a head after the copy, and the one that it was before. -/
theorem Follows.exists_of_done (h : Follows A s) {serial : ℕ} {m' : Monitor}
    (hm' : m' ∈ (outputManagerDone serial s).monitors) {a : Announced} (ha : a ∈ A)
    (heq : m'.headHandle = .head a.head) :
    ∃ m ∈ s.monitors, Blank m a ∧ m' = m.replay a.headData := by
  rw [h.monitors_done] at hm'
  obtain ⟨m, hm, rfl⟩ := List.mem_map.mp hm'
  rw [h.handle_replayed hm] at heq
  exact ⟨m, hm, h.blank m hm a ha heq, h.replayed ha heq⟩

theorem follows_done (h : Follows A s) (serial : ℕ) :
    Follows (announce A (.done serial)) (outputManagerDone serial s) := by
  have hA : (announce A (.done serial)).map (·.head) = A.map (·.head) := by
    rw [announce, List.map_map]
    rfl
  refine ⟨?_, (h.oneToOne_done serial).congr rfl hA, fun a' ha' => ?_, fun m' hm' a' ha' heq => ?_⟩
  · have hheads : (outputManagerDone serial s).heads = s.heads := by
      rw [outputManagerDone, handleSetSerial]
      split_ifs <;> rfl
    rw [hheads, h.heads, announce, List.map_map]
    rfl
  · obtain ⟨a, ha, rfl⟩ := List.mem_map.mp ha'
    exact h.modes a ha
  · obtain ⟨a, ha, rfl⟩ := List.mem_map.mp ha'
    obtain ⟨m, -, hblank, rfl⟩ := h.exists_of_done hm' ha heq
    obtain ⟨-, hmodes, hsupported, henabled, hnone, -⟩ := replayed_spec (h.modes a ha) m
    refine ⟨hsupported.trans hblank.vrrSupported, henabled.trans hblank.vrrEnabled,
      fun hlisted => ?_, fun hcurrent => (hnone hcurrent).trans (hblank.currentMode hcurrent)⟩
    have hlisted' : (a.listed || !a.modes.isEmpty) = false := hlisted
    rw [Bool.or_eq_false_iff, Bool.not_eq_false', List.isEmpty_iff] at hlisted'
    rw [hmodes, hblank.modes hlisted'.1]
    show [] ++ (a.modes.map AnnouncedMode.entry).map _ = []
    rw [hlisted'.2]
    rfl

/-- **The step lemma.** -/
theorem follows_step (h : Follows A s) (e : Event) : Follows (hear A e) (step s e) := by
  rw [hear, step, ← h.heads]
  by_cases harrives : Arrives s.heads e = true
  swap
  · rw [if_neg harrives, if_neg harrives]
    exact h
  rw [if_pos harrives, if_pos harrives]
  cases e with
  | head id =>
    refine follows_head h fun a ha heq => ?_
    rw [h.heads, Arrives, Bool.not_eq_true', List.any_eq_false] at harrives
    exact harrives _ (List.mem_map_of_mem ha) (decide_eq_true heq)
  | onHead id e =>
    refine follows_onHead h fun mode hmode a ha known hknown heq => ?_
    rw [h.heads, hmode, Arrives, Bool.and_eq_true, Bool.not_eq_true', List.any_eq_false] at harrives
    refine harrives.2 _ (List.mem_map_of_mem ha) (List.any_eq_true.mpr ?_)
    exact ⟨known.entry, List.mem_map_of_mem hknown, decide_eq_true heq⟩
  | onMode mode e => exact follows_onMode h mode e
  | finished id => exact follows_finished h id
  | done serial => exact follows_done h serial

/-! ### Runs -/

theorem follows_init : Follows [] {} :=
  ⟨rfl, ⟨rfl, List.nodup_nil⟩, fun _ ha => absurd ha List.not_mem_nil,
    fun _ hm => absurd hm List.not_mem_nil⟩

theorem follows_run (events : List Event) : Follows (announced events) (run events) := by
  have hfrom : ∀ {A : List Announced} {s : State}, Follows A s →
      Follows (Transition.run hear A events) (Transition.run step s events) := by
    induction events with
    | nil => exact fun h => h
    | cons e events ih => exact fun h => ih (follows_step h e)
  exact hfrom follows_init

/-- **The monitors mirror the heads**: after each `done` there is one monitor for each live head,
which holds the values that were announced last, the scale brought into the range of an output, no
adaptive sync if none was announced, the live modes when they are copied for the first time and none
of them is finished, and the current mode. -/
theorem mirrors_done (events : List Event) (serial : ℕ) :
    OneToOne (run (events ++ [.done serial])).monitors (announced events) ∧
    ∀ m ∈ (run (events ++ [.done serial])).monitors, ∀ a ∈ announced events,
      m.headHandle = .head a.head →
        Shows clampScale m a ∧ ShowsCurrent m a ∧
        (a.adaptiveSync = none → ShowsAdaptiveSync m a) ∧
        (a.listed = false → (∀ mode ∈ a.modes, mode.live = true) → Lists m a) := by
  have h := follows_run events
  have hrun : run (events ++ [.done serial]) = outputManagerDone serial (run events) :=
    Transition.run_append _ _ _
  rw [hrun]
  refine ⟨h.oneToOne_done serial, fun m' hm' a ha heq => ?_⟩
  obtain ⟨m, -, hblank, rfl⟩ := h.exists_of_done hm' ha heq
  obtain ⟨hshows, hmodes, hsupported, henabled, hnone, hcurrent⟩ := replayed_spec (h.modes a ha) m
  refine ⟨hshows, ⟨fun hno => (hnone hno).trans (hblank.currentMode hno), hcurrent⟩, fun hno => ?_,
    fun hlisted hlive => ?_⟩
  · rw [ShowsAdaptiveSync, hsupported, henabled, hblank.vrrSupported, hblank.vrrEnabled, hno]
    exact ⟨rfl, rfl⟩
  · rw [Lists, hmodes, hblank.modes hlisted, List.filter_eq_self.mpr hlive]
    refine List.Perm.of_eq ?_
    show ([] ++ (a.modes.map AnnouncedMode.entry).map a.headData.modeOf).map _ = _
    rw [List.nil_append, List.map_map, List.map_map]
    rfl

/-- A head whose scale is below that of any output. -/
def scaledDown : List Event := [.head 0, .onHead 0 (.scale 128)]

theorem not_mirrors : ¬∀ (events : List Event) (serial : ℕ),
    ∀ m ∈ (run (events ++ [.done serial])).monitors, ∀ a ∈ announced events,
      m.headHandle = .head a.head →
        Shows id m a ∧ ShowsCurrent m a ∧ ShowsAdaptiveSync m a ∧ Lists m a := by
  intro h
  have hmonitors : (run (scaledDown ++ [.done 0])).monitors =
      [{ headHandle := .head 0, enabled := false }] := by
    decide +kernel
  have hannounced : announced scaledDown = [{ head := 0, scale := some ((128 : ℤ) / 256) }] := rfl
  have hshows := (h scaledDown 0 _ (hmonitors ▸ List.mem_cons_self) _
    (hannounced ▸ List.mem_cons_self) rfl).1
  exact absurd (hshows.scale _ rfl) (by decide +kernel)

end Display

end SingularityShell
