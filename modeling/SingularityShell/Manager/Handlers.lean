import SingularityShell.Manager.Tracking

/-!
# Every handler keeps the windows and the models in agreement

One lemma for each handler of `StageManager`, put together from the steps of `Manager/Tracking`.

## Main results

* `Manager.reaches_step` — one handler
* `Manager.tracking_run` — every run
-/

namespace SingularityShell

namespace Manager

open Tracker

variable {κ : Type*} {m : Manager κ} {d : Desk κ} {c : String} {key : κ}

/-! ### Every connector has a model -/

theorem mem_names_ensureAll (connectors : List String) {e : String} :
    e ∈ (connectors.foldl ensureModel m).names ↔ e ∈ m.names ∨ e ∈ connectors := by
  induction connectors generalizing m with
  | nil => simp
  | cons c connectors ih =>
    rw [List.foldl_cons, ih, mem_names_ensureModel, List.mem_cons, or_assoc]

theorem ordered_ensureAll (connectors : List String) (hord : ∀ c ∈ m.names, c ∈ m.monitorOrder) :
    ∀ e ∈ (connectors.foldl ensureModel m).names,
      e ∈ (connectors.foldl ensureModel m).monitorOrder :=
  List.foldlRecOn connectors ensureModel
    (motive := fun m : Manager κ => ∀ c ∈ m.names, c ∈ m.monitorOrder)
    hord fun _ h _ _ => ordered_ensureModel h

theorem monitorOf_ensureAll (connectors : List String) :
    (connectors.foldl ensureModel m).monitorOf = m.monitorOf :=
  List.foldlRecOn connectors ensureModel
    (motive := fun m' : Manager κ => m'.monitorOf = m.monitorOf) rfl
    fun _ h _ _ => monitorOf_ensureModel.trans h

theorem windows_ensureAll (connectors : List String) :
    (connectors.foldl ensureModel m).windows = m.windows :=
  List.foldlRecOn connectors ensureModel
    (motive := fun m' : Manager κ => m'.windows = m.windows) rfl
    fun _ h _ _ => windows_ensureModel.trans h

theorem enabled_ensureAll (connectors : List String) :
    (connectors.foldl ensureModel m).enabled = m.enabled :=
  List.foldlRecOn connectors ensureModel
    (motive := fun m' : Manager κ => m'.enabled = m.enabled) rfl
    fun _ h _ _ => enabled_ensureModel.trans h

/-! ### Nothing is tracked -/

theorem Tracking.world_eq (h : m.Tracking) (hoff : m.names = []) :
    m.world = .start m.world.heap := by
  have : m.world.models = fun _ => .fresh := funext fun c => h.absent c (by simp [hoff])
  exact congrArg (World.mk m.world.heap) this

/-- Nothing is tracked after `reset_state`. -/
theorem tracking_resetState (m : Manager κ) : m.resetState.Tracking where
  sound := World.sound_start _
  names_nodup := List.nodup_nil
  windows_nodup := List.nodup_nil
  absent _ _ := rfl
  owned _ _ := by simp [resetState, StageModel.fresh]
  known _ := by simp [resetState]
  order _ h := absurd h List.not_mem_nil

theorem tracking_start : (start : Manager κ).Tracking where
  sound := World.sound_start _
  names_nodup := List.nodup_nil
  windows_nodup := List.nodup_nil
  absent _ _ := rfl
  owned _ _ := by simp [start, StageModel.fresh]
  known _ := by simp [start]
  order _ h := absurd h List.not_mem_nil

theorem ready_start : (start : Manager κ).Ready where
  on h := Bool.noConfusion h
  off _ := rfl
  ordered _ h := absurd h List.not_mem_nil

/-! ### The monitors that are gone -/

/-- The monitors that are gone. -/
def gone (m : Manager κ) (d : Desk κ) : List String :=
  (d.connectors.foldl ensureModel m).monitorOrder.filter fun c => c ∉ d.connectors

theorem gone_notMem (m : Manager κ) (d : Desk κ) : ∀ c ∈ m.gone d, c ∉ d.connectors :=
  fun _ hc => by simpa using (List.mem_filter.mp hc).2

variable [DecidableEq κ]

/-! ### Restoring -/

theorem reaches_restoreOne (h : m.Tracking) (hne : m.monitorOrder ≠ []) (d : Desk κ)
    (hkey : m.monitorOf key = none) : Reaches m.toTracker (m.restoreOne d key).toTracker := by
  unfold restoreOne
  split
  · exact reaches_admitted h (connectorFor_mem h hne d key) hkey fun k => Stage.owner_restoreWindow
  · exact .refl h

theorem monitorOrder_restoreOne : (m.restoreOne d key).monitorOrder = m.monitorOrder := by
  unfold restoreOne
  split_ifs <;> rfl

theorem monitorOf_restoreOne {k : κ} (hk : k ≠ key) :
    (m.restoreOne d key).monitorOf k = m.monitorOf k := by
  unfold restoreOne
  split
  · exact Function.update_of_ne hk _ _
  · rfl

theorem reaches_restoreAll (d : Desk κ) (keys : List κ) (hnodup : keys.Nodup) :
    ∀ m : Manager κ, m.Tracking → m.monitorOrder ≠ [] → (∀ k ∈ keys, m.monitorOf k = none) →
      Reaches m.toTracker (keys.foldl (fun m key => m.restoreOne d key) m).toTracker := by
  induction keys with
  | nil => exact fun m h _ _ => .refl h
  | cons key keys ih =>
    intro m h hne hfree
    obtain ⟨hkey, hnodup⟩ := List.nodup_cons.mp hnodup
    have hone := reaches_restoreOne h hne d (hfree key List.mem_cons_self)
    refine hone.trans (ih hnodup _ hone.tracking (by rwa [monitorOrder_restoreOne]) fun k hk => ?_)
    rw [monitorOf_restoreOne fun (he : k = key) => hkey (he ▸ hk)]
    exact hfree k (List.mem_cons_of_mem _ hk)

/-! ### Splitting and finishing -/

/-- `split_by_app` makes calls on the models and touches nothing else. -/
theorem splitLoop_eq (d : Desk κ) (c lead : String) (keys : List κ) :
    ∀ (m : Manager κ) (sets : String → Option UInt32), ∃ w j,
      (splitLoop d c lead keys m sets).1 = { m with world := w, journal := j } := by
  induction keys with
  | nil => exact fun m _ => ⟨m.world, m.journal, rfl⟩
  | cons key keys ih =>
    intro m sets
    unfold splitLoop
    split_ifs
    · exact ih m sets
    · obtain ⟨w, j, he⟩ := ih (m.call c (.moveWindow key ((sets (d.appId key)).getD 0))) _
      exact ⟨w, j, he⟩

theorem reaches_splitLoop (d : Desk κ) (lead : String) (keys : List κ) :
    ∀ (m : Manager κ) (sets : String → Option UInt32), m.Tracking → c ∈ m.names →
      Reaches m.toTracker (splitLoop d c lead keys m sets).1.toTracker := by
  induction keys with
  | nil => exact fun m _ h _ => .refl h
  | cons key keys ih =>
    intro m sets h hc
    unfold splitLoop
    split_ifs
    · exact ih m sets h hc
    · have hone := reaches_call h hc (Stage.keepsKeys_moveWindow (m.model c) key
        ((sets (d.appId key)).getD 0))
      exact hone.trans (ih _ _ hone.tracking hc)

theorem splitByApp_eq (m : Manager κ) (d : Desk κ) (c : String) : ∃ w j,
    (m.splitByApp d c).1 = { m with world := w, journal := j } := by
  unfold splitByApp
  split
  · exact ⟨m.world, m.journal, rfl⟩
  · split
    · exact splitLoop_eq d c _ _ m _
    · exact ⟨m.world, m.journal, rfl⟩

theorem reaches_splitByApp (h : m.Tracking) (hc : c ∈ m.names) (d : Desk κ) :
    Reaches m.toTracker (m.splitByApp d c).1.toTracker := by
  unfold splitByApp
  split
  · exact .refl h
  · split
    · exact reaches_splitLoop d _ _ m _ h hc
    · exact .refl h

theorem finishLoop_eq (d : Desk κ) (connectors : List String) :
    ∀ m : Manager κ, ∃ w j,
      (finishLoop d connectors m).1 = { m with world := w, journal := j } := by
  induction connectors with
  | nil => exact fun m => ⟨m.world, m.journal, rfl⟩
  | cons c connectors ih =>
    intro m
    unfold finishLoop
    split_ifs
    · obtain ⟨w, j, he⟩ := ih (m.call c (.restoreFinish (m.savedActive c) (m.savedOrder c)))
      exact ⟨w, j, he⟩
    · obtain ⟨w, j, he⟩ := splitByApp_eq m d c
      obtain ⟨w', j', he'⟩ := ih (m.splitByApp d c).1
      exact ⟨w', j', he'.trans (by rw [he])⟩

theorem reaches_finishLoop (d : Desk κ) (connectors : List String) :
    ∀ m : Manager κ, m.Tracking → (∀ c ∈ connectors, c ∈ m.names) →
      Reaches m.toTracker (finishLoop d connectors m).1.toTracker := by
  induction connectors with
  | nil => exact fun m h _ => .refl h
  | cons c connectors ih =>
    intro m h hmem
    have hc := hmem c List.mem_cons_self
    have hrest : ∀ e ∈ connectors, e ∈ m.names := fun e he => hmem e (List.mem_cons_of_mem _ he)
    unfold finishLoop
    split_ifs
    · have hone := reaches_call h hc ((h.sound.owned c).keepsKeys_restoreFinish
        (m.savedActive c) (m.savedOrder c))
      exact hone.trans (ih _ hone.tracking hrest)
    · have hone := reaches_splitByApp h hc d
      refine hone.trans (ih _ hone.tracking ?_)
      obtain ⟨w, j, he⟩ := splitByApp_eq m d c
      rw [he]
      exact hrest

/-! ### On and off -/

theorem reaches_ensureAll (connectors : List String) : ∀ m : Manager κ, m.Tracking →
    m.enabled = true → Reaches m.toTracker (connectors.foldl ensureModel m).toTracker := by
  induction connectors with
  | nil => exact fun m h _ => .refl h
  | cons c connectors ih =>
    intro m h hon
    have hone := reaches_ensureModel h hon c
    exact hone.trans (ih _ hone.tracking (enabled_ensureModel.trans hon))

theorem world_ensureAll (connectors : List String) : ∀ m : Manager κ, m.Tracking →
    m.enabled = true → (connectors.foldl ensureModel m).world = m.world := by
  induction connectors with
  | nil => exact fun m _ _ => rfl
  | cons c connectors ih =>
    intro m h hon
    have hone := reaches_ensureModel h hon c
    exact (ih _ hone.tracking (enabled_ensureModel.trans hon)).trans
      (world_ensureModel (h.absent c))

/-- `enable`, up to the loop over the windows: every model is new. -/
theorem reaches_enableStart (h : m.Tracking) (hr : m.Ready) (hoff : m.enabled = false)
    (d : Desk κ) (saved : Saved) : Reaches m.toTracker (m.enableStart d saved).toTracker ∧
      (m.enableStart d saved).Ready ∧ (m.enableStart d saved).enabled = true ∧
      ∀ k, (m.enableStart d saved).monitorOf k = none := by
  obtain ⟨r, hdef⟩ : ∃ r : Manager κ, r = { m.resetState with enabled := true, saved := saved } :=
    ⟨_, rfl⟩
  have htr : r.Tracking := by
    have := m.tracking_resetState
    rw [hdef]
    exact ⟨this.sound, this.names_nodup, this.windows_nodup, this.absent, this.owned, this.known,
      this.order⟩
  have hperf : Performs m.toTracker r.toTracker := by
    refine ⟨[], ?_, ?_, trivial⟩
    · rw [hdef]
      exact (List.append_nil _).symm
    · rw [hdef]
      exact (Tracking.world_eq h (hr.off hoff)).symm
  have hall := reaches_ensureAll d.connectors r htr (by rw [hdef])
  have hon : (d.connectors.foldl ensureModel r).enabled = true := by
    rw [enabled_ensureAll, hdef]
  have hord := ordered_ensureAll (m := r) d.connectors (by rw [hdef]; exact fun _ hc => hc)
  have hfree : (d.connectors.foldl ensureModel r).monitorOf = fun _ => none := by
    rw [monitorOf_ensureAll, hdef]
    rfl
  have he : m.enableStart d saved = if (d.connectors.foldl ensureModel r).names = []
      then (d.connectors.foldl ensureModel r).ensureModel ""
      else d.connectors.foldl ensureModel r := by
    rw [hdef]
    rfl
  rw [he]
  split_ifs with hnone
  · have hlast := reaches_ensureModel hall.tracking hon ""
    have hready := ready_of_names (enabled_ensureModel.trans hon) (ordered_ensureModel hord)
      (List.ne_nil_of_mem (mem_names_ensureModel (c := "").mpr (Or.inr rfl)))
    refine ⟨⟨hlast.tracking, fun _ => hready, (hperf.trans hall.performs).trans hlast.performs⟩,
      hready, enabled_ensureModel.trans hon, fun k => ?_⟩
    rw [monitorOf_ensureModel, hfree]
  · have hready := ready_of_names hon hord hnone
    exact ⟨⟨hall.tracking, fun _ => hready, hperf.trans hall.performs⟩, hready, hon,
      congrFun hfree⟩

theorem reaches_enable (h : m.Tracking) (hr : m.Ready) (hoff : m.enabled = false) (d : Desk κ)
    (saved : Saved) : Reaches m.toTracker (m.enable d saved).toTracker := by
  obtain ⟨h1, hready, hon, hfree⟩ := reaches_enableStart h hr hoff d saved
  have h2 := reaches_restoreAll d d.mru d.mru_nodup _ h1.tracking (hready.order_ne hon)
    fun k _ => hfree k
  have h3 := reaches_finishLoop d _ _ h2.tracking h2.tracking.order
  change Reaches _ (Manager.syncTags _).toTracker
  rw [toTracker_syncTags, toTracker_applyPlan]
  exact (h1.trans h2).trans h3

/-! ### Off -/

theorem disableAll (connectors : List String) : ∀ m : Manager κ,
    Performs m.toTracker (connectors.foldl disableOne m).toTracker ∧
      ∀ c, (connectors.foldl disableOne m).world.models c =
        if c ∈ connectors then .fresh else m.world.models c := by
  induction connectors with
  | nil => exact fun m => ⟨.refl _, fun c => rfl⟩
  | cons c connectors ih =>
    intro m
    obtain ⟨h1, h2⟩ := ih (m.disableOne c)
    have hone : Performs m.toTracker (m.disableOne c).toTracker :=
      ⟨[.on c .clear], rfl, rfl, trivial, trivial⟩
    refine ⟨hone.trans h1, fun e => ?_⟩
    have hmodel : (m.disableOne c).world.models e =
        if e = c then .fresh else m.world.models e := Function.update_apply _ _ _ _
    rw [List.foldl_cons, h2, hmodel]
    simp only [List.mem_cons]
    split_ifs <;> simp_all

theorem reaches_disable (h : m.Tracking) : Reaches m.toTracker m.disable.toTracker := by
  obtain ⟨n, hn⟩ : ∃ n, n = m.names.foldl disableOne ({ m with enabled := false } : Manager κ) :=
    ⟨_, rfl⟩
  obtain ⟨h1, h2⟩ := disableAll m.names ({ m with enabled := false } : Manager κ)
  rw [← hn] at h1 h2
  have hfresh : n.world = .start n.world.heap := by
    refine congrArg (World.mk n.world.heap) (funext fun c => ?_)
    rw [h2]
    split_ifs with hc
    · rfl
    · exact h.absent c hc
  have ht := n.tracking_resetState
  have he : m.disable = { n.resetState with saved := .none } := by rw [hn]; rfl
  rw [he]
  refine ⟨⟨ht.sound, ht.names_nodup, ht.windows_nodup, ht.absent, ht.owned, ht.known, ht.order⟩,
    fun _ => ⟨fun hon => ?_, fun _ => rfl, fun c hc => absurd hc List.not_mem_nil⟩, ?_⟩
  · have hoff : n.enabled = false := by
      rw [hn]
      exact List.foldlRecOn m.names disableOne
        (motive := fun n : Manager κ => n.enabled = false) rfl
        fun _ h _ _ => h
    exact absurd (hon.symm.trans hoff) (by decide)
  · have h2 : Performs n.toTracker n.resetState.toTracker :=
      ⟨[], (List.append_nil _).symm, hfresh.symm, trivial⟩
    exact h1.trans h2

theorem reaches_applySetting (h : m.Tracking) (hr : m.Ready) (want : Bool) (saved : Saved)
    (d : Desk κ) : Reaches m.toTracker (m.applySetting d want saved).toTracker := by
  unfold applySetting
  split_ifs with heq hwant
  · exact .refl h
  · refine reaches_enable h hr ?_ d saved
    rw [hwant] at heq
    exact Bool.eq_false_iff.mpr fun hon => heq hon.symm
  · exact reaches_disable h

/-! ### Windows -/

theorem reaches_onWindowOpened (h : m.Tracking) (d : Desk κ) (key : κ) :
    Reaches m.toTracker (m.onWindowOpened d key).toTracker := by
  unfold onWindowOpened
  split
  · next hcond =>
    obtain ⟨hon, -, hkey⟩ := hcond
    obtain ⟨c, hc⟩ : ∃ c, c = m.connectorFor d key := ⟨_, rfl⟩
    have h1 := reaches_ensureModel h hon c
    have hmem : c ∈ (m.ensureModel c).names := mem_names_ensureModel.mpr (Or.inr rfl)
    have hfree : (m.ensureModel c).monitorOf key = none := by rwa [monitorOf_ensureModel]
    dsimp only
    rw [← hc]
    split
    · rw [toTracker_syncTags, toTracker_applyPlan]
      have h2 := reaches_admitted (x := .restoreWindow key (d.tag key) (d.isMinimized key)
        (d.wasHidden key)) h1.tracking hmem hfree fun k => Stage.owner_restoreWindow
      exact (h1.trans h2).trans (reaches_call h2.tracking hmem
        ((h2.tracking.sound.owned c).keepsKeys_restoreFinish _ _))
    · rw [toTracker_syncTags]
      exact h1.trans (reaches_admitted h1.tracking hmem hfree fun k => Stage.owner_addWindow)
  · exact .refl h

theorem reaches_onWindowClosed (h : m.Tracking) (key : κ) :
    Reaches m.toTracker (m.onWindowClosed key).toTracker := by
  unfold onWindowClosed
  split
  · exact .refl h
  · next c hc =>
    split
    · exact reaches_release h hc
    · exact .refl h

theorem reaches_onWindowOutputChanged (h : m.Tracking) (d : Desk κ) (key : κ) :
    Reaches m.toTracker (m.onWindowOutputChanged d key).toTracker := by
  unfold onWindowOutputChanged
  split
  · exact .refl h
  · next source hkey =>
    split
    · next hcond =>
      rw [toTracker_syncTags]
      exact reaches_relocate h hcond.1 hkey d _
    · exact .refl h

theorem reaches_onWindowStateChanged (h : m.Tracking) (d : Desk κ) (key : κ) :
    Reaches m.toTracker (m.onWindowStateChanged d key).toTracker := by
  unfold onWindowStateChanged
  split
  · exact .refl h
  · next c hc =>
    have hmem : c ∈ m.names := h.mem_names ((h.owned key c).mp hc)
    split
    · split
      · exact .refl h
      · split
        · exact reaches_call h hmem fun k => iff_of_eq (congrArg (· = none)
            (congrFun (Stage.owner_setUserMinimized (m.model c) key (d.isMinimized key)) k))
        · split
          · split
            · exact .refl h
            · exact reaches_call (x := .markShown key) h hmem fun _ => Iff.rfl
          · exact .refl h
    · exact .refl h

/-- A focus event asks for an activation at most. -/
theorem onWindowFocused_eq (m : Manager κ) (d : Desk κ) (key : κ) :
    ∃ p, m.onWindowFocused d key = { m with pendingActivate := p } := by
  unfold onWindowFocused
  split
  · exact ⟨_, rfl⟩
  · split
    · split
      · exact ⟨_, rfl⟩
      · split_ifs <;> exact ⟨_, rfl⟩
    · exact ⟨_, rfl⟩

theorem reaches_activate (h : m.Tracking) (id : UInt32) (d : Desk κ) :
    Reaches m.toTracker (m.activate d id).toTracker := by
  unfold activate
  split
  · exact .refl h
  · next c hc =>
    split
    · exact .refl h
    · have hmem : c ∈ m.names := by
        split_ifs at hc
        exact List.mem_of_find?_eq_some hc
      rw [toTracker_syncTags]
      change Reaches _ (Manager.applyPlan _ d _ _).toTracker
      rw [toTracker_applyPlan]
      exact reaches_call (m := { m with switching := true }) h hmem fun k =>
        iff_of_eq (congrArg (· = none) (congrFun ((h.sound.owned c).owner_activate id) k))

theorem reaches_idle (h : m.Tracking) (d : Desk κ) :
    Reaches m.toTracker (m.idle d).toTracker := by
  unfold idle
  split
  · exact .refl h
  · exact reaches_activate (m := { m with pendingActivate := none }) h _ d

theorem reaches_moveWindow (h : m.Tracking) (d : Desk κ) (key : κ) (targetId : UInt32)
    (connector : Option String) :
    Reaches m.toTracker (m.moveWindow d key targetId connector).toTracker := by
  unfold moveWindow
  split
  · exact .refl h
  · next home hhome =>
    have hmem : home ∈ m.names := by
      split_ifs at hhome
      exact h.mem_names ((h.owned key home).mp hhome)
    split
    · exact .refl h
    · split
      · exact .refl h
      · rw [toTracker_syncTags, toTracker_applyPlan]
        exact reaches_call h hmem (Stage.keepsKeys_moveWindow _ key targetId)

/-! ### Monitors -/

/-- The loop of `sync_monitors` over the monitors that are gone. -/
def retireAll (target : String) (gone : List String) (m : Manager κ) : Manager κ :=
  gone.foldl (fun m c => m.retire target c) m

theorem reaches_retireAll {target : String} (gone : List String) : ∀ m : Manager κ, m.Tracking →
    target ∈ m.monitorOrder → (∀ c ∈ gone, c ∉ m.monitorOrder) →
      Reaches m.toTracker (retireAll target gone m).toTracker := by
  induction gone with
  | nil => exact fun m h _ _ => .refl h
  | cons c gone ih =>
    intro m h htarget hgone
    have hc := hgone c List.mem_cons_self
    have hne : target ≠ c := fun he => hc (he ▸ htarget)
    have hone := reaches_retire h (h.order target htarget) hne hc
    exact hone.trans (ih _ hone.tracking htarget fun e he => hgone e (List.mem_cons_of_mem _ he))

theorem retireAll_fields (target : String) (gone : List String) (m : Manager κ) :
    (retireAll target gone m).enabled = m.enabled ∧
      (retireAll target gone m).monitorOrder = m.monitorOrder ∧
      (retireAll target gone m).windows = m.windows := by
  induction gone generalizing m with
  | nil => exact ⟨rfl, rfl, rfl⟩
  | cons c gone ih => exact ih (m.retire target c)

theorem mem_names_retireAll (target : String) (gone : List String) {e : String} :
    ∀ m : Manager κ, m.names.Nodup →
      (e ∈ (retireAll target gone m).names ↔ e ∈ m.names ∧ e ∉ gone) := by
  induction gone with
  | nil => exact fun m _ => by simp [retireAll]
  | cons c gone ih =>
    intro m hnodup
    refine (ih (m.retire target c) (hnodup.erase c)).trans ?_
    change e ∈ m.names.erase c ∧ _ ↔ _
    rw [hnodup.mem_erase_iff, List.mem_cons]
    tauto

/-- Every connector has a model, and the order of the monitors is new. -/
def regroupStart (m : Manager κ) (d : Desk κ) : Manager κ :=
  { d.connectors.foldl ensureModel m with monitorOrder := d.connectors }

theorem regroup_eq (m : Manager κ) (d : Desk κ) (target : String) :
    m.regroup d target = retireAll target (m.gone d) (m.regroupStart d) := rfl

theorem tracking_regroupStart (h : m.Tracking) (hon : m.enabled = true) (d : Desk κ) :
    (m.regroupStart d).Tracking := by
  have h := (reaches_ensureAll d.connectors m h hon).tracking
  exact ⟨h.sound, h.names_nodup, h.windows_nodup, h.absent, h.owned, h.known, fun c hc =>
    (mem_names_ensureAll d.connectors).mpr (Or.inr hc)⟩

theorem reaches_regroup (h : m.Tracking) (hr : m.Ready) (hon : m.enabled = true) {d : Desk κ}
    {target : String} (htarget : target ∈ d.connectors) :
    Reaches m.toTracker (m.regroup d target).toTracker := by
  have h1 := reaches_ensureAll d.connectors m h hon
  have h2 := tracking_regroupStart h hon d
  have hnames : ∀ e, e ∈ (m.regroupStart d).names ↔ e ∈ m.names ∨ e ∈ d.connectors := fun e =>
    mem_names_ensureAll d.connectors
  have h3 := reaches_retireAll (m.gone d) _ h2 htarget (gone_notMem m d)
  have hperf : Performs m.toTracker (m.regroupStart d).toTracker := h1.performs
  obtain ⟨hon', horder', -⟩ := retireAll_fields target (m.gone d) (m.regroupStart d)
  have hmem := fun e => mem_names_retireAll target (m.gone d) (e := e) _ h2.names_nodup
  rw [regroup_eq]
  refine ⟨h3.tracking, fun _ => ready_of_names ?_ (fun e he => ?_) ?_, hperf.trans h3.performs⟩
  · rw [hon']
    exact (enabled_ensureAll d.connectors).trans hon
  · obtain ⟨he, hne⟩ := (hmem e).mp he
    rw [horder']
    change e ∈ d.connectors
    by_contra hc
    exact hne (List.mem_filter.mpr ⟨ordered_ensureAll d.connectors hr.ordered e he,
      by simpa using hc⟩)
  · refine List.ne_nil_of_mem
      ((hmem target).mpr ⟨(hnames target).mpr (Or.inr htarget), fun hc => ?_⟩)
    exact gone_notMem m d target hc htarget

theorem reaches_checkAll (d : Desk κ) (keys : List κ) : ∀ m : Manager κ, m.Tracking →
    Reaches m.toTracker (keys.foldl (fun m key => m.onWindowOutputChanged d key) m).toTracker := by
  induction keys with
  | nil => exact fun m h => .refl h
  | cons key keys ih =>
    intro m h
    have hone := reaches_onWindowOutputChanged h d key
    exact hone.trans (ih _ hone.tracking)

theorem reaches_syncMonitors (h : m.Tracking) (hr : m.Ready) (d : Desk κ) :
    Reaches m.toTracker (m.syncMonitors d).toTracker := by
  unfold syncMonitors
  split
  · exact .refl h
  · next target rest hcon =>
    split_ifs at hcon with hon
    have h1 := reaches_regroup h hr hon (hcon ▸ List.mem_cons_self)
    exact h1.trans (reaches_checkAll d _ _ h1.tracking)

/-! ### Runs -/

/-- **Every handler** reaches what it leaves behind. -/
theorem reaches_step (h : m.Tracking) (hr : m.Ready) (e : Handler κ) :
    Reaches m.toTracker (m.step e).toTracker := by
  cases e with
  | applySetting want saved d => exact reaches_applySetting h hr want saved d
  | windowOpened key d => exact reaches_onWindowOpened h d key
  | windowClosed key => exact reaches_onWindowClosed h key
  | windowOutputChanged key d => exact reaches_onWindowOutputChanged h d key
  | windowStateChanged key d => exact reaches_onWindowStateChanged h d key
  | windowFocused key d =>
    obtain ⟨p, hp⟩ := onWindowFocused_eq m d key
    change Reaches _ (m.onWindowFocused d key).toTracker
    rw [hp]
    exact .refl h
  | idle d => exact reaches_idle h d
  | activate id d => exact reaches_activate h id d
  | moveWindow key targetId connector d => exact reaches_moveWindow h d key targetId connector
  | syncMonitors d => exact reaches_syncMonitors h hr d
  | saveState =>
    change Reaches _ m.saveState.toTracker
    unfold saveState
    split_ifs <;> exact .refl h
  | rehash names windows =>
    change Reaches _ (if _ then _ else m).toTracker
    split_ifs with hperm
    · refine ⟨⟨h.sound, hperm.1.nodup_iff.mpr h.names_nodup, hperm.2.nodup_iff.mpr h.windows_nodup,
        fun c hc => h.absent c fun hc' => hc (hperm.1.mem_iff.mpr hc'), h.owned,
        fun k => hperm.2.mem_iff.trans (h.known k),
        fun c hc => hperm.1.mem_iff.mpr (h.order c hc)⟩, fun hr => ⟨fun hon hnil => ?_,
        fun hoff => ?_, fun c hc => hr.ordered c (hperm.1.mem_iff.mp hc)⟩, .refl _⟩
      · exact hr.on hon (List.perm_nil.mp ((show names = [] from hnil) ▸ hperm.1).symm)
      · exact List.perm_nil.mp (hr.off hoff ▸ hperm.1)
    · exact .refl h

/-- The handlers do nothing to the models but call their methods, and the windows of a model are
those that are on its monitor. -/
theorem reaches_run (es : List (Handler κ)) : ∀ m : Manager κ, m.Tracking → m.Ready →
    Reaches m.toTracker (Transition.run step m es).toTracker := by
  induction es with
  | nil => exact fun m h _ => .refl h
  | cons e es ih =>
    intro m h hr
    have hone := reaches_step h hr e
    exact hone.trans (ih _ hone.tracking (hone.ready hr))

end Manager

end SingularityShell
