import SingularityShell.Manager.Model

/-!
# Every window is on one monitor

What the manager knows about windows and what its models know have to agree: a window is in the
model of the connector `_monitor_of` gives, and in no other. `Tracker.Tracking` says so, and every
handler keeps it.

A handler also does nothing to the models but call their methods, and it merges two of them only
when they share no window. `Tracker.Reaches` says both at once, so that what holds of every run of
the models, whatever it is, can be carried over to the manager.

## Main definitions

* `Tracker.Tracking` — the agreement
* `Tracker.Reaches` — a later tracker, reached through calls on the models

## Main results

* `Manager.Tracking.step` — every handler reaches what it leaves behind
-/

namespace SingularityShell

variable {κ : Type*}

/-! ### Which windows a call adds and removes -/

namespace Stage

variable [DecidableEq κ] {s : Stage κ} {key k : κ}

theorem owner_addWindow : (s.addWindow key).owner k = none ↔ s.owner k = none ∧ k ≠ key := by
  by_cases hk : s.owner key = none
  · have he := congrArg (fun v => Grouping.group v k) (grouping_addWindow (s := s) hk)
    change (s.addWindow key).owner k = Function.update s.owner key _ k at he
    rw [he, Function.update_apply]
    split_ifs with h <;> simp [h]
  · rw [addWindow, if_pos (Option.isSome_iff_ne_none.mpr hk)]
    exact (and_iff_left_of_imp fun h (he : k = key) => hk (he ▸ h)).symm

theorem owner_restoreWindow {setId : UInt32} {minimized hidden : Bool} :
    (s.restoreWindow key setId minimized hidden).owner k = none ↔ s.owner k = none ∧ k ≠ key := by
  by_cases hk : s.owner key = none
  · obtain ⟨g, a, he⟩ := grouping_restoreWindow hk setId minimized hidden
    have he := congrArg (fun v => Grouping.group v k) he
    change (s.restoreWindow key setId minimized hidden).owner k = Function.update s.owner key _ k
      at he
    rw [he, Function.update_apply]
    split_ifs with h <;> simp [h]
  · rw [restoreWindow, if_pos (Option.isSome_iff_ne_none.mpr hk)]
    exact (and_iff_left_of_imp fun h (he : k = key) => hk (he ▸ h)).symm

theorem owner_removeWindow :
    (s.removeWindow key).owner k = if k = key then none else s.owner k := by
  cases hk : s.owner key with
  | none =>
    rw [show s.removeWindow key = s by simp only [removeWindow, hk]]
    split_ifs with h
    · rw [h, hk]
    · rfl
  | some r =>
    have he := congrArg (fun v => Grouping.group v k) (grouping_removeWindow hk)
    exact he.trans (Function.update_apply _ _ _ _)

/-- The call neither adds a window to the model nor takes one out. -/
def KeepsKeys (s : Stage κ) (c : Call κ) : Prop :=
  ∀ k, (s.call c).1.owner k = none ↔ s.owner k = none

theorem Owned.keepsKeys_restoreFinish (h : s.Owned) (activeId : UInt32)
    (order : Option (List UInt32)) : s.KeepsKeys (.restoreFinish activeId order) := fun k => by
  have he := congrArg (fun v => Grouping.group v k) (h.grouping_restoreFinish activeId order)
  change (s.restoreFinish activeId order).1.owner k = _ at he
  change (s.restoreFinish activeId order).1.owner k = none ↔ _
  rw [he]
  by_cases hk : k ∈ s.grouping.activeMembers
  · refine iff_of_false ?_ hk.1
    change (s.grouping.gather _).group k ≠ none
    rw [Grouping.group_gather_of_mem hk]
    simp
  · change (s.grouping.gather _).group k = none ↔ _
    rw [Grouping.group_gather_of_notMem hk]
    rfl

theorem Owned.owner_activate (h : s.Owned) (id : UInt32) : (s.activate id).1.owner = s.owner := by
  rcases h.grouping_activate id with he | ⟨target, -, -, he⟩
  · rw [he]
  · exact congrArg Grouping.group he

theorem keepsKeys_moveWindow (s : Stage κ) (key : κ) (targetId : UInt32) :
    s.KeepsKeys (.moveWindow key targetId) := fun k => by
  change (s.moveWindow key targetId).1.owner k = none ↔ _
  rcases grouping_moveWindow s key targetId with he | ⟨hk, he⟩
  · rw [he]
  · have he := congrArg (fun v => Grouping.group v k) he
    change (s.moveWindow key targetId).1.owner k = Function.update s.owner key _ k at he
    rw [he, Function.update_apply]
    split_ifs with h
    · exact iff_of_false (by simp) (h ▸ hk)
    · rfl

theorem owner_setUserMinimized (s : Stage κ) (key : κ) (minimized : Bool) :
    (s.setUserMinimized key minimized).owner = s.owner := by
  unfold setUserMinimized
  split_ifs <;> rfl

/-- The windows of both models are in the one that took the other over. -/
theorem Apart.owner_adopt {other : StageModel κ} (h : s.Owned) (ha : s.Apart other) :
    (s.adopt other).1.owner k = none ↔ s.owner k = none ∧ other.owner k = none := by
  obtain ⟨h1, h2⟩ := ha.adopt h
  have hin := ha.mem_windows_adoptActive h k
  have hself := h1.owner k
  have howner : (s.adopt other).1.owner k = none ↔ (s.adoptActive other).owner k = none ∧
      ¬∃ r ∈ other.inactive, k ∈ ((s.adoptActive other).sets r).windows := by
    simp only [Option.eq_none_iff_forall_ne_some, ne_eq, h2.owner_iff]
    grind
  rw [howner, hin, hself]
  by_cases hact : other.owner k ≠ none ∧ other.owner k = other.active
  · rw [if_pos hact]
    exact iff_of_false (fun hc => h1.active_some k hact.1 hact.2 hc.1) fun hc => hact.1 hc.2
  · rw [if_neg hact]
    tauto

end Stage

/-! ### The agreement -/

namespace Tracker

/-- A window is in the model of the connector it is on, and in no other. -/
structure Tracking (t : Tracker κ) : Prop where
  sound : t.world.Sound
  names_nodup : t.names.Nodup
  windows_nodup : t.windows.Nodup
  /-- A connector without a model has a new one. -/
  absent : ∀ c, c ∉ t.names → t.world.models c = .fresh
  owned : ∀ k c, t.monitorOf k = some c ↔ (t.world.stage c).owner k ≠ none
  known : ∀ k, k ∈ t.windows ↔ t.monitorOf k ≠ none
  order : ∀ c ∈ t.monitorOrder, c ∈ t.names

/-- What holds between two handlers, on top of that. -/
structure Ready (t : Tracker κ) : Prop where
  /-- While the stage is on there is a model, and while it is off there is none. -/
  on : t.enabled = true → t.names ≠ []
  off : t.enabled = false → t.names = []
  ordered : ∀ c ∈ t.names, c ∈ t.monitorOrder

variable {t t' t'' : Tracker κ} {c : String} {key : κ}

/-- The model and the owner of a window are determined by each other. -/
theorem Tracking.unique (h : t.Tracking) {c c' : String} (hc : (t.world.stage c).owner key ≠ none)
    (hc' : (t.world.stage c').owner key ≠ none) : c = c' :=
  Option.some_inj.mp (((h.owned key c).mpr hc).symm.trans ((h.owned key c').mpr hc'))

theorem Tracking.mem_names (h : t.Tracking) (hc : (t.world.stage c).owner key ≠ none) :
    c ∈ t.names := by
  by_contra hn
  refine hc ?_
  change (t.world.models c).owner key = none
  rw [h.absent c hn]
  rfl

theorem Tracking.separate (h : t.Tracking) {c c' : String} (hne : c ≠ c') :
    t.world.Separate c c' := by
  refine ⟨hne, fun k => ?_⟩
  by_contra hc
  exact hne (h.unique (not_or.mp hc).1 (not_or.mp hc).2)

/-- Only the list that says which windows there are is different. -/
theorem Tracking.congr (h : t.Tracking) {windows : List κ} (hnodup : windows.Nodup)
    (hmem : ∀ k, k ∈ windows ↔ k ∈ t.windows) : Tracking { t with windows := windows } :=
  ⟨h.sound, h.names_nodup, hnodup, h.absent, h.owned, fun k => (hmem k).trans (h.known k), h.order⟩

theorem Ready.order_ne (hr : t.Ready) (hon : t.enabled = true) : t.monitorOrder ≠ [] := by
  obtain ⟨c, hc⟩ := List.exists_mem_of_ne_nil _ (hr.on hon)
  exact List.ne_nil_of_mem (hr.ordered c hc)

variable [DecidableEq κ]

/-- `t'` comes after `t`, and all that has happened to the models are calls. -/
def Performs (t t' : Tracker κ) : Prop :=
  ∃ es, t'.journal = t.journal ++ es ∧ t'.world = Transition.run World.step t.world es ∧
    Transition.Guarded World.step World.Fair t.world es

/-- A later tracker that is in agreement, reached through calls on the models. -/
structure Reaches (t t' : Tracker κ) : Prop where
  tracking : t'.Tracking
  ready : t.Ready → t'.Ready
  performs : Performs t t'

theorem Performs.refl (t : Tracker κ) : Performs t t := ⟨[], by simp, rfl, trivial⟩

theorem Performs.trans (h : Performs t t') (h' : Performs t' t'') : Performs t t'' := by
  obtain ⟨es, hj, hw, hg⟩ := h
  obtain ⟨es', hj', hw', hg'⟩ := h'
  refine ⟨es ++ es', ?_, ?_, ?_⟩
  · rw [hj', hj, List.append_assoc]
  · rw [hw', hw, Transition.run_append]
  · rw [hw] at hg'
    exact (Transition.guarded_append _ _ _).mpr ⟨hg, hg'⟩

theorem Reaches.refl (h : t.Tracking) : Reaches t t := ⟨h, id, .refl t⟩

theorem Reaches.trans (h : Reaches t t') (h' : Reaches t' t'') : Reaches t t'' :=
  ⟨h'.tracking, fun hr => h'.ready (h.ready hr), h.performs.trans h'.performs⟩

theorem owner_step_on (w : World String κ) (c d : String) (x : Call κ) :
    ((w.step (.on c x)).stage d).owner =
      if d = c then ((w.stage c).call x).1.owner else (w.stage d).owner := by
  split_ifs with h
  · rw [h, show (w.step (.on c x)).stage c = _ from World.stage_put_self _]
  · rw [show (w.step (.on c x)).stage d = _ from World.stage_put_of_ne _ h]
    rfl

/-- A call on one model, with whatever it takes to keep `_monitor_of` and `_windows` right. -/
theorem Tracking.on (h : t.Tracking) (hc : c ∈ t.names) (x : Call κ)
    {monitorOf : κ → Option String} {windows : List κ} (hnodup : windows.Nodup)
    (hself : ∀ k, monitorOf k = some c ↔ ((t.world.stage c).call x).1.owner k ≠ none)
    (hother : ∀ k d, d ≠ c → (monitorOf k = some d ↔ t.monitorOf k = some d))
    (hknown : ∀ k, k ∈ windows ↔ monitorOf k ≠ none) :
    Reaches t { t with
      world := t.world.step (.on c x), journal := t.journal ++ [.on c x],
      monitorOf := monitorOf, windows := windows } where
  tracking := by
    refine ⟨World.sound_step _ (.on c x) h.sound trivial, h.names_nodup, hnodup, fun d hd => ?_,
      fun k d => ?_, hknown, h.order⟩
    · have hne : d ≠ c := fun he => hd (he ▸ hc)
      exact (Function.update_of_ne hne _ _).trans (h.absent d hd)
    · rw [owner_step_on]
      split_ifs with hd
      · exact hd ▸ hself k
      · exact (hother k d hd).trans (h.owned k d)
  ready hr := ⟨hr.on, hr.off, hr.ordered⟩
  performs := ⟨[.on c x], rfl, rfl, trivial, trivial⟩

end Tracker

/-! ### What the handlers are made of -/

namespace Manager

open Tracker

variable {m : Manager κ} {d : Desk κ} {c : String} {key : κ}

theorem mem_names_ensureModel {e : String} :
    e ∈ (m.ensureModel c).names ↔ e ∈ m.names ∨ e = c := by
  unfold ensureModel
  by_cases hc : c ∈ m.names
  · rw [if_pos hc]
    exact (or_iff_left_of_imp fun he => he ▸ hc).symm
  · rw [if_neg hc]
    simp

@[simp] theorem monitorOf_ensureModel : (m.ensureModel c).monitorOf = m.monitorOf := by
  unfold ensureModel
  split_ifs <;> rfl

@[simp] theorem windows_ensureModel : (m.ensureModel c).windows = m.windows := by
  unfold ensureModel
  split_ifs <;> rfl

@[simp] theorem enabled_ensureModel : (m.ensureModel c).enabled = m.enabled := by
  unfold ensureModel
  split_ifs <;> rfl

/-- `ensure_model` only concerns the tracker. -/
theorem ensureModel_eq (m : Manager κ) (c : String) :
    ∃ t, m.ensureModel c = { m with toTracker := t } := by
  unfold ensureModel
  split_ifs
  · exact ⟨m.toTracker, rfl⟩
  · exact ⟨⟨_, _, _, _, _, _, _⟩, rfl⟩
  · exact ⟨⟨_, _, _, _, _, _, _⟩, rfl⟩

theorem ensureModel_with (m : Manager κ) (windows : List κ) (monitorOf : κ → Option String) :
    ({ m with windows := windows, monitorOf := monitorOf } : Manager κ).ensureModel c =
      { m.ensureModel c with windows := windows, monitorOf := monitorOf } := by
  unfold ensureModel
  dsimp only
  split_ifs <;> rfl

theorem ready_of_names (hon : m.enabled = true) (hord : ∀ c ∈ m.names, c ∈ m.monitorOrder)
    (hne : m.names ≠ []) : m.Ready :=
  ⟨fun _ => hne, fun hoff => absurd (hon.symm.trans hoff) (by decide), hord⟩

theorem ordered_ensureModel (hord : ∀ c ∈ m.names, c ∈ m.monitorOrder) :
    ∀ e ∈ (m.ensureModel c).names, e ∈ (m.ensureModel c).monitorOrder := by
  intro e he
  unfold ensureModel at he ⊢
  split_ifs at he ⊢ with hc hord'
  · exact hord e he
  · exact (List.mem_append.mp he).elim (hord e) fun h => List.mem_singleton.mp h ▸ hord'
  · exact List.mem_append.mpr ((List.mem_append.mp he).imp_left (hord e))

/-- `ensure_model` changes no model. -/
theorem world_ensureModel (h : c ∉ m.names → m.world.models c = .fresh) :
    (m.ensureModel c).world = m.world := by
  unfold ensureModel
  split_ifs with hc
  · rfl
  · change (⟨m.world.heap, Function.update m.world.models c .fresh⟩ : World String κ) = _
    rw [← h hc, Function.update_eq_self]
  · change (⟨m.world.heap, Function.update m.world.models c .fresh⟩ : World String κ) = _
    rw [← h hc, Function.update_eq_self]

theorem connectorFor_mem (h : m.Tracking) (hne : m.monitorOrder ≠ []) (d : Desk κ) (key : κ) :
    m.connectorFor d key ∈ m.names := by
  unfold connectorFor
  cases hf : (d.outputs key).find? fun c => c ∈ m.names with
  | some c => simpa using List.find?_some hf
  | none =>
    rw [Option.getD_none]
    unfold primaryConnector
    split
    · next c cs hord => exact h.order c (hord ▸ List.mem_cons_self)
    · next hord => exact absurd hord hne

variable [DecidableEq κ]

/-- A call that leaves the windows where they are. -/
theorem reaches_call (h : m.Tracking) (hc : c ∈ m.names) {x : Call κ}
    (hx : (m.model c).KeepsKeys x) : Reaches m.toTracker (m.call c x).toTracker :=
  h.on hc x h.windows_nodup (fun k => (h.owned k c).trans (not_congr (hx k)).symm)
    (fun _ _ _ => Iff.rfl) h.known

/-- A new window comes to a model. -/
theorem reaches_admitted (h : m.Tracking) (hc : c ∈ m.names) (hkey : m.monitorOf key = none)
    {x : Call κ} (hx : ∀ k, ((m.model c).call x).1.owner k = none ↔
      (m.model c).owner k = none ∧ k ≠ key) :
    Reaches m.toTracker ((m.track key c).call c x).toTracker := by
  have hmem : key ∉ m.windows := fun hc => (h.known key).mp hc hkey
  have hwindows : (m.track key c).windows = m.windows ++ [key] := if_neg hmem
  refine h.on hc x ?_ (fun k => ?_) (fun k e he => ?_) fun k => ?_
  · rw [hwindows]
    exact h.windows_nodup.append (List.nodup_singleton _) (by simpa using hmem)
  · change Function.update m.monitorOf key (some c) k = _ ↔ ((m.model c).call x).1.owner k ≠ none
    rw [Ne, hx, Function.update_apply]
    have := h.owned k c
    change _ ↔ (m.model c).owner k ≠ none at this
    split_ifs with hk
    · simp [hk]
    · tauto
  · change Function.update m.monitorOf key (some c) k = _ ↔ _
    rw [Function.update_apply]
    split_ifs with hk
    · rw [hk, hkey]
      simp [Ne.symm he]
    · rfl
  · change _ ↔ Function.update m.monitorOf key (some c) k ≠ none
    rw [hwindows, List.mem_append, List.mem_singleton, Function.update_apply, h.known]
    split_ifs with hk <;> simp [hk]

/-- A window leaves its model. -/
theorem reaches_release (h : m.Tracking) (hc : m.monitorOf key = some c) :
    Reaches m.toTracker { (m.call c (.removeWindow key)).toTracker with
      windows := m.windows.erase key, monitorOf := Function.update m.monitorOf key none } := by
  refine h.on (h.mem_names ((h.owned key c).mp hc)) _ (h.windows_nodup.erase _) (fun k => ?_)
    (fun k e he => ?_) fun k => ?_
  · have := h.owned k c
    change _ ↔ ((m.model c).removeWindow key).owner k ≠ none
    rw [Stage.owner_removeWindow, Function.update_apply]
    split_ifs with hk
    · simp
    · exact this
  · rw [Function.update_apply]
    split_ifs with hk
    · rw [hk, hc]
      simp [Ne.symm he]
    · rfl
  · rw [h.windows_nodup.mem_erase_iff, Function.update_apply, h.known]
    split_ifs with hk <;> simp [hk]

theorem reaches_ensureModel (h : m.Tracking) (hon : m.enabled = true) (c : String) :
    Reaches m.toTracker (m.ensureModel c).toTracker := by
  have hready : m.Ready → (m.ensureModel c).Ready := fun hr =>
    ready_of_names (enabled_ensureModel.trans hon) (ordered_ensureModel hr.ordered)
      (List.ne_nil_of_mem (mem_names_ensureModel.mpr (Or.inr rfl)))
  by_cases hc : c ∈ m.names
  · rw [show m.ensureModel c = m from if_pos hc]
    exact .refl h
  · have hord : c ∉ m.monitorOrder := fun ho => hc (h.order c ho)
    have hw := world_ensureModel (h.absent c)
    refine ⟨?_, hready, [], ?_, hw, trivial⟩ <;>
      simp only [ensureModel, if_neg hc, if_neg hord] at hw ⊢
    · rw [hw]
      refine ⟨h.sound, ?_, h.windows_nodup, fun e he => ?_, h.owned, h.known, ?_⟩
      · exact h.names_nodup.append (List.nodup_singleton _) (by simpa using hc)
      · exact h.absent e fun hn => he (List.mem_append_left _ hn)
      · exact fun e he => List.mem_append.mpr ((List.mem_append.mp he).imp_left (h.order e))
    · exact (List.append_nil _).symm

/-! ### What the compositor is told -/

/-- Hiding and showing windows only changes what the manager expects to hear of them. -/
theorem setHidden_eq (m : Manager κ) (d : Desk κ) (hidden : Bool) (key : κ) :
    ∃ e, m.setHidden d hidden key = { m with expected := e } := by
  unfold setHidden
  split_ifs
  · exact ⟨_, rfl⟩
  · exact ⟨m.expected, rfl⟩

theorem applyPlan_eq (m : Manager κ) (d : Desk κ) (hide show_ : List κ) :
    ∃ e, m.applyPlan d hide show_ = { m with expected := e } := by
  have hfold : ∀ (hidden : Bool) (keys : List κ) (m : Manager κ),
      ∃ e, keys.foldl (fun m key => m.setHidden d hidden key) m = { m with expected := e } := by
    intro hidden keys
    induction keys with
    | nil => exact fun m => ⟨m.expected, rfl⟩
    | cons key keys ih =>
      intro m
      obtain ⟨e, he⟩ := setHidden_eq m d hidden key
      obtain ⟨e', he'⟩ := ih (m.setHidden d hidden key)
      exact ⟨e', he'.trans (by rw [he])⟩
  obtain ⟨e, he⟩ := hfold true hide m
  obtain ⟨e', he'⟩ := hfold false show_ { m with expected := e }
  exact ⟨e', by rw [applyPlan, he, he']⟩

@[simp] theorem toTracker_applyPlan (m : Manager κ) (d : Desk κ) (hide show_ : List κ) :
    (m.applyPlan d hide show_).toTracker = m.toTracker := by
  obtain ⟨e, he⟩ := applyPlan_eq m d hide show_
  rw [he]

/-- `sync_tags` only changes the tags. -/
theorem syncTag_eq (m : Manager κ) (c : String) (key : κ) :
    ∃ t, m.syncTag c key = { m with toTags := t } := by
  unfold syncTag
  dsimp only
  split_ifs
  · exact ⟨m.toTags, rfl⟩
  · exact ⟨⟨_, _⟩, rfl⟩
  · exact ⟨m.toTags, rfl⟩

theorem syncKeys_eq (c : String) (keys : List κ) : ∀ m : Manager κ,
    ∃ t, keys.foldl (fun m key => m.syncTag c key) m = { m with toTags := t } := by
  induction keys with
  | nil => exact fun m => ⟨m.toTags, rfl⟩
  | cons key keys ih =>
    intro m
    obtain ⟨t, ht⟩ := syncTag_eq m c key
    obtain ⟨t', ht'⟩ := ih (m.syncTag c key)
    exact ⟨t', ht'.trans (by rw [ht])⟩

theorem syncTags_eq (m : Manager κ) : ∃ t, m.syncTags = { m with toTags := t } := by
  have hloop : ∀ (names : List String) (m : Manager κ), ∃ t,
      names.foldl (fun m c => (m.model c).allWindows.foldl (fun m key => m.syncTag c key) m) m =
        { m with toTags := t } := by
    intro names
    induction names with
    | nil => exact fun m => ⟨m.toTags, rfl⟩
    | cons c names ih =>
      intro m
      obtain ⟨t, ht⟩ := syncKeys_eq c (m.model c).allWindows m
      obtain ⟨t', ht'⟩ := ih { m with toTags := t }
      exact ⟨t', by rw [List.foldl_cons, ht, ht']⟩
  exact hloop m.names m

@[simp] theorem toTracker_syncTags (m : Manager κ) : m.syncTags.toTracker = m.toTracker := by
  obtain ⟨t, ht⟩ := syncTags_eq m
  rw [ht]

/-- A window leaves the model of one connector for that of another. -/
theorem reaches_relocate (h : m.Tracking) (hon : m.enabled = true) {source : String}
    (hkey : m.monitorOf key = some source) (d : Desk κ) (target : String) :
    Reaches m.toTracker (m.relocate d key source target).toTracker := by
  -- The same calls, with the window taken out of the maps in between.
  obtain ⟨v, hv⟩ : ∃ v : Manager κ, v = { m.call source (.removeWindow key) with
    windows := m.windows.erase key, monitorOf := Function.update m.monitorOf key none } := ⟨_, rfl⟩
  have h1 : Reaches m.toTracker v.toTracker := hv ▸ reaches_release h hkey
  have h2 := reaches_ensureModel h1.tracking (hv ▸ hon) target
  have hfree : (v.ensureModel target).monitorOf key = none := by
    rw [monitorOf_ensureModel, hv]
    simp
  have h3 := reaches_admitted (x := .addWindow key) h2.tracking
    (mem_names_ensureModel.mpr (Or.inr rfl)) hfree fun k => Stage.owner_addWindow
  obtain ⟨u, hu⟩ : ∃ u, u = ((v.ensureModel target).track key target).call target
    (.addWindow key) := ⟨_, rfl⟩
  rw [← hu] at h3
  obtain ⟨w, hw⟩ : ∃ w, w = if d.isMinimized key && !decide (key ∈ (m.model source).hidden)
    then u.call target (.setUserMinimized key true) else u := ⟨_, rfl⟩
  have h4 : Reaches u.toTracker w.toTracker := by
    rw [hw]
    split_ifs
    · refine reaches_call h3.tracking ?_ fun k => ?_
      · rw [hu]
        exact mem_names_ensureModel.mpr (Or.inr rfl)
      · exact iff_of_eq (congrArg (· = none) (congrFun (Stage.owner_setUserMinimized _ key true) k))
    · exact .refl h3.tracking
  have h5 := ((h1.trans h2).trans h3).trans h4
  have hidem : Function.update v.monitorOf key (some target) =
      Function.update m.monitorOf key (some target) := by
    rw [hv]
    exact Function.update_idem _ _ _
  have hmonitor : w.monitorOf = Function.update m.monitorOf key (some target) := by
    have : u.monitorOf = Function.update m.monitorOf key (some target) := by
      rw [hu]
      change Function.update (v.ensureModel target).monitorOf key (some target) = _
      rw [monitorOf_ensureModel, hidem]
    rw [hw]
    split_ifs <;> exact this
  have hfinal : (m.relocate d key source target).toTracker =
      { w.toTracker with windows := m.windows } := by
    obtain ⟨n, hn⟩ : ∃ n, n = (m.call source (.removeWindow key)).ensureModel target := ⟨_, rfl⟩
    have he : v.ensureModel target =
        { n with windows := v.windows, monitorOf := v.monitorOf } := by
      rw [hn, ← ensureModel_with, hv]
    have hwindows : n.windows = m.windows := hn ▸ windows_ensureModel
    have hsame : Function.update n.monitorOf key (some target) =
        Function.update v.monitorOf key (some target) := by
      rw [hidem, hn, monitorOf_ensureModel]
      rfl
    have hshow : ∀ (b : Bool) (m : Manager κ),
        (if b = true then m.setHidden d false key else m).toTracker = m.toTracker := by
      intro b m
      cases b
      · rfl
      · obtain ⟨e, he⟩ := setHidden_eq m d false key
        rw [if_pos rfl, he]
    rw [hw, hu, he]
    unfold relocate
    dsimp only
    rw [hshow, ← hn]
    split_ifs <;> exact Tracker.ext rfl rfl rfl rfl hsame hwindows rfl
  rw [hfinal]
  refine ⟨h5.tracking.congr h.windows_nodup fun k => ?_, fun hr => ?_, h5.performs⟩
  · rw [h.known, h5.tracking.known, hmonitor, Function.update_apply]
    split_ifs with hk
    · simp [hk, hkey]
    · rfl
  · exact ⟨(h5.ready hr).on, (h5.ready hr).off, (h5.ready hr).ordered⟩

/-- The windows of the monitor that is gone are on the target now. -/
theorem monitorOf_retire (h : m.Tracking) (target c : String) (k : κ) :
    (m.retire target c).monitorOf k =
      if m.monitorOf k = some c then some target else m.monitorOf k := by
  have hall : k ∈ (m.model c).allWindows ↔ m.monitorOf k = some c :=
    (h.sound.owned c).mem_allWindows.trans (h.owned k c).symm
  change (if k ∈ (m.model c).allWindows then _ else _) = _
  simp only [hall]

/-- One monitor is gone, and its model has joined another one. -/
theorem reaches_retire (h : m.Tracking) {target : String} (htarget : target ∈ m.names)
    (hne : target ≠ c) (hc : c ∉ m.monitorOrder) :
    Reaches m.toTracker (m.retire target c).toTracker := by
  have hsep := h.separate hne
  have hap := h.sound.stageApart hsep
  have hown := fun k => hap.owner_adopt (k := k) (h.sound.owned target)
  have hmon := monitorOf_retire h target c
  refine ⟨⟨h.sound.adopt hsep, h.names_nodup.erase c, h.windows_nodup, fun e he => ?_,
    fun k e => ?_, fun k => ?_, fun e he => ?_⟩,
    fun hr => ⟨fun hon => ?_, fun hoff => ?_, fun e he => ?_⟩,
    ⟨[.adopt target c], rfl, rfl, hsep, trivial⟩⟩
  · by_cases hec : e = c
    · subst hec
      exact congrArg Stage.toStageModel (World.stage_adopt_other m.world target e)
    · have hen : e ∉ m.names := fun hn => he ((List.mem_erase_of_ne hec).mpr hn)
      have het : e ≠ target := fun h' => hen (h' ▸ htarget)
      exact (congrArg Stage.toStageModel (World.stage_adopt_of_ne het hec)).trans (h.absent e hen)
  · have hnone : ∀ e, (m.world.stage e).owner k = none ↔ m.monitorOf k ≠ some e := fun e =>
      not_ne_iff.symm.trans (not_congr (h.owned k e)).symm
    rw [hmon]
    change _ ↔ ((m.world.step (.adopt target c)).stage e).owner k ≠ none
    by_cases het : e = target
    · subst het
      rw [World.stage_adopt_self hne, Ne, hown, hnone]
      change _ ↔ ¬(_ ∧ (m.world.stage c).owner k = none)
      rw [hnone]
      split_ifs with hk <;> simp [hk]
    · by_cases hec : e = c
      · subst hec
        rw [World.stage_adopt_other]
        refine iff_of_false ?_ (by simp [StageModel.fresh])
        split_ifs with hk
        · simpa using hne
        · exact hk
      · rw [World.stage_adopt_of_ne het hec]
        change _ ↔ (m.world.stage e).owner k ≠ none
        rw [← h.owned]
        split_ifs with hk
        · simp [hk, Ne.symm het, Ne.symm hec]
        · rfl
  · rw [hmon]
    change k ∈ m.windows ↔ _
    rw [h.known]
    split_ifs with hk <;> simp [hk]
  · exact (List.mem_erase_of_ne fun (hec : e = c) => hc (hec ▸ he)).mpr (h.order e he)
  · exact List.ne_nil_of_mem ((List.mem_erase_of_ne hne).mpr htarget)
  · change m.names.erase c = []
    rw [hr.off hoff]
    rfl
  · exact hr.ordered e (List.mem_of_mem_erase he)

end Manager

end SingularityShell
