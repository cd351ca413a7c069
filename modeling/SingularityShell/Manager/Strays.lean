import SingularityShell.Manager.Frames

/-!
# Strays

A stray is a window on screen although its set is not active. Most of what a handler does makes no
new stray: a window that is added joins the active set, a window that leaves it is hidden, and
switching sets hides one and shows the other. `Manager.Tidy` says so of a handler.

## Main definitions

* `Stage.exposed` — the inactive sets with strays
* `Manager.Tidy` — every stray was a stray before, in a set with the same id

## Main results

* `Manager.tidy_step` — the handlers that make no stray
-/

namespace SingularityShell

/-! ### Strays of a model -/

namespace Stage

variable {κ : Type*} {s : Stage κ} {key k : κ} {r : ℕ}

section
variable [DecidableEq κ]

/-- The inactive sets with a window that is neither hidden nor minimised. -/
def exposed (s : Stage κ) : List ℕ :=
  s.inactive.filter fun r => (s.sets r).windows.any fun key =>
    decide (key ∉ s.hidden) && decide (key ∉ s.userMinimized)

theorem mem_exposed : r ∈ s.exposed ↔
    r ∈ s.inactive ∧ ∃ k ∈ (s.sets r).windows, k ∉ s.hidden ∧ k ∉ s.userMinimized := by
  simp [exposed]

/-- The exposed sets are those that have strays. -/
theorem Owned.mem_exposed_iff (h : s.Owned) :
    r ∈ s.exposed ↔ ∃ k ∈ s.grouping.stray, s.owner k = some r := by
  rw [mem_exposed]
  constructor
  · rintro ⟨hr, k, hk, hh, hm⟩
    have ho := (h.owner_iff k r).mpr ⟨mem_refs.mpr (Or.inr hr), hk⟩
    have hin := h.mem_windows_inactive.mp ⟨r, hr, hk⟩
    exact ⟨k, ⟨⟨hin.1, by simpa [grouping] using hh, by simpa [grouping] using hm⟩, hin.2⟩, ho⟩
  · rintro ⟨k, hk, ho⟩
    obtain ⟨⟨hg, hh, hm⟩, hact⟩ := Grouping.mem_stray.mp hk
    obtain ⟨hr, hk⟩ := (h.owner_iff k r).mp ho
    refine ⟨(mem_refs.mp hr).resolve_left fun ha => hact ⟨hg, ?_⟩, k, hk,
      by simpa [grouping] using hh, by simpa [grouping] using hm⟩
    exact (show s.owner k = s.active from ho.trans ha.symm)

end

theorem stray_fresh (h : Heap κ) : (⟨h, .fresh⟩ : Stage κ).grouping.stray = ∅ :=
  Set.eq_empty_of_forall_notMem fun _ hk => (Grouping.mem_stray.mp hk).1.1 rfl

variable [DecidableEq κ]

theorem Owned.tidier_addWindow (h : s.Owned) (key : κ) :
    (s.addWindow key).grouping.Tidier s.grouping := by
  by_cases hk : s.owner key = none
  · rw [grouping_addWindow hk]
    exact Grouping.tidier_join (h.ensureActive_group.imp_right And.left)
  · rw [Stage.addWindow, if_pos (Option.isSome_iff_ne_none.mpr hk)]
    exact .refl _

theorem tidier_removeWindow (s : Stage κ) (key : κ) :
    (s.removeWindow key).grouping.Tidier s.grouping := by
  cases hk : s.owner key with
  | none =>
    rw [show s.removeWindow key = s by simp only [removeWindow, hk]]
    exact .refl _
  | some r =>
    rw [grouping_removeWindow hk]
    exact Grouping.tidier_forget

/-- A window is minimised, or one of the active set is brought back. -/
theorem tidier_setUserMinimized {minimized : Bool}
    (hk : minimized = true ∨ s.owner key = s.active) :
    (s.setUserMinimized key minimized).grouping.Tidier s.grouping := by
  by_cases hnone : s.owner key = none
  · rw [setUserMinimized, if_pos (Option.isNone_iff_eq_none.mpr hnone)]
    exact .refl _
  · rw [grouping_setUserMinimized hnone]
    exact Grouping.tidier_minimize (hk.imp_right fun hk => ⟨hnone, hk⟩)

theorem Owned.tidier_activate (h : s.Owned) (id : UInt32) :
    (s.activate id).1.grouping.Tidier s.grouping := by
  rcases h.grouping_activate id with he | ⟨target, -, -, he⟩
  · rw [he]
    exact .refl _
  · rw [he]
    exact Grouping.tidier_switchTo

/-- A window that is not a stray goes to another set, or any window goes to the active set, or a
window stays. -/
theorem tidier_moveWindow {targetId : UInt32} (hk : key ∉ s.grouping.stray ∨ targetId ≠ 0 ∧
    (s.findSet targetId = none ∨ s.findSet targetId = s.active ∨
      s.findSet targetId = s.owner key)) :
    (s.moveWindow key targetId).1.grouping.Tidier s.grouping := by
  rcases grouping_moveWindow s key targetId with he | ⟨hg, he⟩
  · rw [he]
    exact .refl _
  by_cases hstay : targetId ≠ 0 ∧ (s.findSet targetId = none ∨ s.findSet targetId = s.owner key)
  · obtain ⟨r, hr⟩ := Option.ne_none_iff_exists'.mp hg
    rw [hr] at hstay
    rw [moveWindow, hr]
    dsimp only
    rw [if_pos hstay]
    exact .refl _
  · rw [he]
    refine Grouping.tidier_move (hk.imp_right fun ⟨hid, hfind⟩ => ?_) hg
    obtain ⟨a, ha⟩ := Option.ne_none_iff_exists'.mp fun hn => hstay ⟨hid, Or.inl hn⟩
    have hact : s.findSet targetId = s.active :=
      (hfind.resolve_left fun hn => hstay ⟨hid, Or.inl hn⟩).resolve_right
        fun ho => hstay ⟨hid, Or.inr ho⟩
    have htarget : (s.moveTarget targetId).2 = a := by
      unfold moveTarget
      rw [if_neg hid, ha]
    rw [htarget]
    exact hact.symm.trans ha

theorem Owned.stray_restoreFinish (h : s.Owned) (activeId : UInt32)
    (order : Option (List UInt32)) : (s.restoreFinish activeId order).1.grouping.stray = ∅ := by
  rw [h.grouping_restoreFinish]
  exact Grouping.stray_settle

theorem tidier_flagRestored (s : Stage κ) (key : κ) (minimized hidden : Bool) :
    (s.flagRestored key minimized hidden).grouping.Tidier s.grouping := by
  intro j hj
  rw [Grouping.mem_stray] at hj ⊢
  unfold flagRestored at hj ⊢
  cases minimized <;> cases hidden <;> simp [grouping] at hj ⊢ <;> tauto

/-- A window that comes back without a tag joins the active set. -/
theorem Owned.tidier_restoreWindow (h : s.Owned) (key : κ) (minimized hidden : Bool) :
    (s.restoreWindow key 0 minimized hidden).grouping.Tidier s.grouping := by
  by_cases hk : s.owner key = none
  · rw [Stage.restoreWindow, if_neg (by simp [hk]), if_pos rfl]
    exact (tidier_flagRestored _ key minimized hidden).trans (h.tidier_addWindow key)
  · rw [Stage.restoreWindow, if_pos (Option.isSome_iff_ne_none.mpr hk)]
    exact .refl _

/-- The windows that are strays after a model has been taken over were strays before. -/
theorem Apart.mem_stray_adopt {other : StageModel κ} (h : s.Owned) (ha : s.Apart other)
    (hk : k ∈ (s.adopt other).1.grouping.stray) :
    k ∈ s.grouping.stray ∧ (s.adopt other).1.owner k = s.owner k ∨
      k ∈ (grouping ⟨s.toHeap, other⟩).stray ∧ (s.adopt other).1.owner k = other.owner k := by
  obtain ⟨h1, h2⟩ := ha.adopt h
  have hin := ha.mem_windows_adoptActive h k
  rw [Grouping.mem_stray] at hk
  obtain ⟨⟨hg, hhid, hmin⟩, hact⟩ := hk
  have hhid : k ∉ (s.adopt other).1.hidden := by simpa [grouping] using hhid
  have hmin : k ∉ (s.adopt other).1.userMinimized := by simpa [grouping] using hmin
  have hact : (s.adopt other).1.owner k ≠ (s.adopt other).1.active := fun he => hact ⟨hg, he⟩
  rw [h2.hidden_iff, h1.hidden] at hhid
  rw [h2.minimized_iff, h1.minimized_iff] at hmin
  rw [h2.active] at hact
  have howner := h2.owner_iff k
  by_cases hnone : other.owner k = none
  · -- A window of ours keeps its set.
    have hself : (s.adopt other).1.owner k = s.owner k := by
      refine Option.ext fun r => (howner r).trans ?_
      rw [h1.owner, if_neg fun hc => hc.1 hnone]
      exact or_iff_left fun hc => (hin.mp ⟨r, hc⟩).1 hnone
    refine Or.inl ⟨Grouping.mem_stray.mpr ⟨⟨?_, ?_, ?_⟩, fun hc => ?_⟩, hself⟩
    · exact fun hc => hg (hself.trans hc)
    · simpa [grouping] using fun hc => hhid (Or.inl hc)
    · simpa [grouping] using fun hc => hmin (Or.inl (Or.inl hc))
    · rcases h1.active with ha' | ⟨-, ha'⟩
      · exact hact (hself.trans ((show s.owner k = s.active from hc.2).trans ha'.symm))
      · exact hc.1 ((show s.owner k = s.active from hc.2).trans ha')
  · by_cases hoact : other.owner k = other.active
    · -- A window of the other active set joins ours.
      obtain ⟨a, ha'⟩ := Option.ne_none_iff_exists'.mp (h1.active_some k hnone hoact)
      have hself : (s.adoptActive other).owner k = some a := by
        rw [h1.owner, if_pos ⟨hnone, hoact⟩, ha']
      exact absurd (((howner a).mpr (Or.inl hself)).trans ha'.symm) hact
    · -- A window of another set keeps it.
      obtain ⟨r, hr, hkr⟩ := hin.mpr ⟨hnone, fun hc => hoact hc.2⟩
      have hother : other.owner k = some r := by
        refine (ha.owned.owner_iff k r).mpr ⟨mem_refs.mpr (Or.inr hr), ?_⟩
        rw [(h1.others r hr).1] at hkr
        exact hkr
      refine Or.inr ⟨Grouping.mem_stray.mpr ⟨⟨hnone, ?_, ?_⟩, fun hc => hoact hc.2⟩,
        ((howner r).mpr (Or.inr ⟨hr, hkr⟩)).trans hother.symm⟩
      · simpa [grouping] using fun hc => hhid (Or.inr ⟨hc, r, hr, hkr⟩)
      · simpa [grouping] using fun hc => hmin (Or.inr ⟨hc, r, hr, hkr⟩)

end Stage

/-! ### Strays of all models -/

namespace Manager

open Tracker

variable {κ : Type*} {m m' m'' : Manager κ} {d : Desk κ} {c : String} {key k : κ}

/-- Every stray of `m'` is a stray of `m`, in a set with the same id. Its model may have been merged
into another one. -/
def Tidy (m m' : Manager κ) : Prop := ∀ c, ∀ k ∈ (m'.model c).grouping.stray,
  ∃ c', k ∈ (m.model c').grouping.stray ∧ m'.ownerId c k = m.ownerId c' k

/-- No model has a stray. -/
def NoStray (m : Manager κ) : Prop := ∀ c, (m.model c).grouping.stray = ∅

theorem Tidy.trans (h : Tidy m m') (h' : Tidy m' m'') : Tidy m m'' := by
  intro c k hk
  obtain ⟨c', hk', hid'⟩ := h' c k hk
  obtain ⟨c'', hk'', hid''⟩ := h c' k hk'
  exact ⟨c'', hk'', hid'.trans hid''⟩

theorem tidy_of_world (hw : m'.world = m.world) : Tidy m m' := by
  intro c k hk
  have hmodel : m'.model = m.model := congrArg World.stage hw
  refine ⟨c, hmodel ▸ hk, ?_⟩
  unfold ownerId
  rw [hmodel]

theorem NoStray.tidy (h : m'.NoStray) (m : Manager κ) : Tidy m m' := fun c k hk => by
  rw [h c] at hk
  exact hk.elim

theorem Tidy.noStray (h : Tidy m m') (hm : m.NoStray) : m'.NoStray := fun c =>
  Set.eq_empty_of_forall_notMem fun k hk => by
    obtain ⟨c', hk', -⟩ := h c k hk
    rw [hm c'] at hk'
    exact hk'

theorem Tracking.noStray_of_free (h : m.Tracking) (hfree : ∀ k, m.monitorOf k = none) :
    m.NoStray := fun c => Set.eq_empty_of_forall_notMem fun k hk => by
  have := (h.owned k c).mpr (Grouping.mem_stray.mp hk).1.1
  rw [hfree k] at this
  cases this

theorem Tracking.stray_of_absent (h : m.Tracking) (hc : c ∉ m.names) :
    (m.model c).grouping.stray = ∅ :=
  Set.eq_empty_of_forall_notMem fun _ hk => hc (h.mem_names (Grouping.mem_stray.mp hk).1.1)

variable [DecidableEq κ]

theorem sound_call (h : m.world.Sound) (c : String) (x : Call κ) : (m.call c x).world.Sound :=
  World.sound_step _ (.on c x) h trivial

theorem grouping_call_of_ne (m : Manager κ) {e : String} (hec : e ≠ c) (x : Call κ) :
    ((m.call c x).model e).grouping = (m.model e).grouping := by
  rw [model_call_of_ne m hec]
  rfl

theorem tidy_call (h : m.world.Sound) (c : String) (x : Call κ)
    (hx : ((m.model c).call x).1.grouping.Tidier (m.model c).grouping) : Tidy m (m.call c x) := by
  intro e k hk
  by_cases hec : e = c
  · subst hec
    rw [model_call_self] at hk
    obtain ⟨hk', ho⟩ := hx k hk
    exact ⟨e, hk', ownerId_call h ho e⟩
  · have he := grouping_call_of_ne m hec x
    exact ⟨e, he ▸ hk, ownerId_call_of_owner h (congrFun (congrArg Grouping.group he) k)⟩

/-- Hiding and showing windows and sending tags changes no model. -/
theorem tidy_syncTags (m : Manager κ) (d : Desk κ) (hide show_ : List κ) :
    Tidy m (m.applyPlan d hide show_).syncTags :=
  tidy_of_world
    (congrArg Tracker.world ((toTracker_syncTags _).trans (toTracker_applyPlan m d _ _)))

/-- What the first call has done to its model does not matter, once the restore is finished. -/
theorem tidy_restoreFinish (h : m.world.Sound) (c : String) (x : Call κ) (activeId : UInt32)
    (order : Option (List UInt32)) :
    Tidy m ((m.call c x).call c (.restoreFinish activeId order)) := by
  have h' := sound_call h c x
  intro e k hk
  by_cases hec : e = c
  · subst hec
    rw [model_call_self] at hk
    have hnone := (h'.owned e).stray_restoreFinish activeId order
    exact absurd (hnone ▸ hk) (Set.notMem_empty k)
  · have he := grouping_call_of_ne m hec x
    have he' := grouping_call_of_ne (m.call c x) hec (.restoreFinish activeId order)
    refine ⟨e, he ▸ he' ▸ hk, ?_⟩
    rw [ownerId_call_of_owner h' (congrFun (congrArg Grouping.group he') k),
      ownerId_call_of_owner h (congrFun (congrArg Grouping.group he) k)]

/-- A merge leaves every stray in its set. -/
theorem tidy_retire (h : m.Tracking) {target : String} (hne : target ≠ c) :
    Tidy m (m.retire target c) := by
  have hap := h.sound.stageApart (h.separate hne)
  obtain ⟨-, h2⟩ := hap.adopt (h.sound.owned target)
  have hid : ∀ e e' : String, ∀ k, ((m.retire target c).model e).owner k = (m.model e').owner k →
      (m.retire target c).ownerId e k = m.ownerId e' k := by
    intro e e' k ho
    unfold ownerId
    rw [ho]
    refine Option.map_congr fun r hr => ?_
    have hlt := (h.sound.owned e').fresh r (((h.sound.owned e').owner_iff k r).mp hr).1
    change (((m.world.stage target).adopt (m.world.models c)).1.sets r).id = _
    rw [h2.toHeap]
    exact (Stage.extends_adoptActive _ _).id r hlt
  intro e k hk
  by_cases hec : e = c
  · subst hec
    rw [show (m.retire target e).model e = _ from World.stage_adopt_other m.world target e,
      Stage.stray_fresh] at hk
    exact hk.elim
  · by_cases het : e = target
    · subst het
      have hmodel : (m.retire e c).model e = ((m.model e).adopt (m.world.models c)).1 :=
        World.stage_adopt_self hne
      rw [hmodel] at hk
      rcases hap.mem_stray_adopt (h.sound.owned e) hk with ⟨hk', ho⟩ | ⟨hk', ho⟩
      · exact ⟨e, hk', hid e e k (by rw [hmodel]; exact ho)⟩
      · exact ⟨c, hk', hid e c k (by rw [hmodel]; exact ho)⟩
    · have hmodel := World.stage_adopt_of_ne (w := m.world) het hec
      change (m.retire target c).model e = _ at hmodel
      rw [hmodel] at hk
      exact ⟨e, hk, hid e e k (by rw [hmodel]; rfl)⟩

/-! ### Turning the stage on and off -/

theorem noStray_restoreAll (keys : List κ) (hnodup : keys.Nodup)
    (htags : ∀ key ∈ keys, d.isStageWindow key = true → d.tag key = 0) :
    ∀ m : Manager κ, m.Tracking → m.monitorOrder ≠ [] → (∀ k ∈ keys, m.monitorOf k = none) →
      m.NoStray → (keys.foldl (fun m key => m.restoreOne d key) m).NoStray := by
  induction keys with
  | nil => exact fun m _ _ _ h => h
  | cons key keys ih =>
    intro m h hne hfree hm
    obtain ⟨hkey, hnodup⟩ := List.nodup_cons.mp hnodup
    have hone := reaches_restoreOne h hne d (hfree key List.mem_cons_self)
    refine ih hnodup (fun e he => htags e (List.mem_cons_of_mem _ he)) _ hone.tracking
      (by rwa [monitorOrder_restoreOne]) (fun k hk => ?_) ?_
    · rw [monitorOf_restoreOne fun (he : k = key) => hkey (he ▸ hk)]
      exact hfree k (List.mem_cons_of_mem _ hk)
    · change (m.restoreOne d key).NoStray
      unfold restoreOne
      split
      · next hwin =>
        rw [htags key List.mem_cons_self hwin]
        refine Tidy.noStray (m := m.track key (m.connectorFor d key)) (tidy_call h.sound _ _ ?_) hm
        exact (h.sound.owned _).tidier_restoreWindow key _ _
      · exact hm

theorem noStray_splitLoop (lead : String) (keys : List κ) :
    ∀ (m : Manager κ) (sets : String → Option UInt32), m.world.Sound → m.NoStray →
      (splitLoop d c lead keys m sets).1.NoStray := by
  induction keys with
  | nil => exact fun m _ _ h => h
  | cons key keys ih =>
    intro m sets h hm
    unfold splitLoop
    split_ifs
    · exact ih m sets h hm
    · refine ih _ _ (sound_call h c _) (Tidy.noStray (tidy_call h c _ ?_) hm)
      refine Stage.tidier_moveWindow (Or.inl fun hk => ?_)
      rw [hm c] at hk
      exact hk

theorem noStray_splitByApp (h : m.world.Sound) (hm : m.NoStray) (d : Desk κ) (c : String) :
    (m.splitByApp d c).1.NoStray := by
  unfold splitByApp
  split
  · exact hm
  · split
    · exact noStray_splitLoop _ _ m _ h hm
    · exact hm

/-- A model that is split has no strays before, and one that is finished has none afterwards. -/
theorem noStray_finishLoop (connectors : List String) : ∀ m : Manager κ, m.Tracking →
    (∀ c ∈ connectors, c ∈ m.names) → (restored d = false → m.NoStray) →
      (∀ c ∉ connectors, (m.model c).grouping.stray = ∅) →
      (finishLoop d connectors m).1.NoStray := by
  induction connectors with
  | nil => exact fun m _ _ _ hm c => hm c List.not_mem_nil
  | cons c connectors ih =>
    intro m h hmem hsplit hm
    have hrest : ∀ e ∈ connectors, e ∈ m.names := fun e he => hmem e (List.mem_cons_of_mem _ he)
    unfold finishLoop
    split_ifs with hres
    · have hone := reaches_call h (hmem c List.mem_cons_self)
        ((h.sound.owned c).keepsKeys_restoreFinish (m.savedActive c) (m.savedOrder c))
      refine ih _ hone.tracking hrest (fun hc => absurd hres (by simp [hc])) fun e he => ?_
      by_cases hec : e = c
      · rw [hec, model_call_self]
        exact (h.sound.owned c).stray_restoreFinish _ _
      · rw [grouping_call_of_ne m hec]
        exact hm e fun hc => (List.mem_cons.mp hc).elim hec he
    · have hno := noStray_splitByApp h.sound (hsplit (by simpa using hres)) d c
      have hone := reaches_splitByApp h (hmem c List.mem_cons_self) d
      obtain ⟨w, j, he⟩ := splitByApp_eq m d c
      refine ih _ hone.tracking ?_ (fun _ => hno) fun e _ => hno e
      rw [he]
      exact hrest

theorem noStray_enable (h : m.Tracking) (hr : m.Ready) (hoff : m.enabled = false) (d : Desk κ)
    (saved : Saved) : (m.enable d saved).NoStray := by
  obtain ⟨h1, hready, hon, hfree⟩ := reaches_enableStart h hr hoff d saved
  have h2 := reaches_restoreAll d d.mru d.mru_nodup _ h1.tracking (hready.order_ne hon)
    fun k _ => hfree k
  refine Tidy.noStray (tidy_syncTags _ d _ _) (noStray_finishLoop (d := d) _ _ h2.tracking
    h2.tracking.order (fun hres => ?_) fun c hc => ?_)
  · refine noStray_restoreAll d.mru d.mru_nodup (fun key hkey hwin => ?_) _ h1.tracking
      (hready.order_ne hon) (fun k _ => hfree k) (Tracking.noStray_of_free h1.tracking hfree)
    simpa [hwin] using List.any_eq_false.mp hres key hkey
  · exact Tracking.stray_of_absent h2.tracking fun hn => hc ((h2.ready hready).ordered c hn)

theorem tidy_applySetting (h : m.Tracking) (hr : m.Ready) (want : Bool) (saved : Saved)
    (d : Desk κ) : Tidy m (m.applySetting d want saved) := by
  unfold applySetting
  split_ifs with heq hwant
  · exact tidy_of_world rfl
  · rw [hwant] at heq
    exact (noStray_enable h hr (Bool.eq_false_iff.mpr fun hon => heq hon.symm) d saved).tidy m
  · exact (Tracking.noStray_of_free (reaches_disable h).tracking fun _ => rfl).tidy m

/-! ### Windows and monitors -/

theorem tidy_onWindowOpened (h : m.Tracking) (d : Desk κ) (key : κ) :
    Tidy m (m.onWindowOpened d key) := by
  unfold onWindowOpened
  split
  · obtain ⟨c, hc⟩ : ∃ c, c = m.connectorFor d key := ⟨_, rfl⟩
    have hworld := world_ensureModel (h.absent c)
    have hsound : ((m.ensureModel c).track key c).world.Sound := hworld ▸ h.sound
    have hstart : Tidy m ((m.ensureModel c).track key c) := tidy_of_world hworld
    dsimp only
    rw [← hc]
    split
    · obtain ⟨n, hn⟩ : ∃ n, n = ((m.ensureModel c).track key c).call c
        (.restoreWindow key (d.tag key) (d.isMinimized key) (d.wasHidden key)) := ⟨_, rfl⟩
      have hfinish := tidy_restoreFinish hsound c
        (.restoreWindow key (d.tag key) (d.isMinimized key) (d.wasHidden key)) (n.keepActive c)
        (n.savedOrder c)
      rw [← hn] at hfinish ⊢
      exact (hstart.trans hfinish).trans (tidy_syncTags _ d _ _)
    · have hadd := tidy_call hsound c (.addWindow key) ((hsound.owned c).tidier_addWindow key)
      exact (hstart.trans hadd).trans
        (tidy_of_world (congrArg Tracker.world (toTracker_syncTags _)))
  · exact tidy_of_world rfl

theorem tidy_onWindowClosed (h : m.Tracking) (key : κ) : Tidy m (m.onWindowClosed key) := by
  unfold onWindowClosed
  split
  · exact tidy_of_world rfl
  · next c _ =>
    split
    · exact (tidy_call h.sound c (.removeWindow key)
        (Stage.tidier_removeWindow (m.model c) key)).trans (tidy_of_world rfl)
    · exact tidy_of_world rfl

theorem tidy_relocate (h : m.Tracking) {source : String} (hs : source ∈ m.names) (d : Desk κ)
    (key : κ) (target : String) : Tidy m (m.relocate d key source target) := by
  obtain ⟨n, hn⟩ : ∃ n, n = (m.call source (.removeWindow key)).ensureModel target := ⟨_, rfl⟩
  have hworld : n.world = (m.call source (.removeWindow key)).world := by
    rw [hn]
    refine world_ensureModel fun hnot => ?_
    exact (Function.update_of_ne (fun he : target = source => hnot (he ▸ hs)) _ _).trans
      (h.absent target hnot)
  have h1 := sound_call h.sound source (.removeWindow key)
  have hsound : n.world.Sound := hworld ▸ h1
  have h2 : Tidy m n := (tidy_call h.sound source (.removeWindow key)
    (Stage.tidier_removeWindow (m.model source) key)).trans (tidy_of_world hworld)
  have h3 := h2.trans
    (tidy_call hsound target (.addWindow key) ((hsound.owned target).tidier_addWindow key))
  have hmin := tidy_call (sound_call hsound target (.addWindow key)) target
    (.setUserMinimized key true) (Stage.tidier_setUserMinimized (Or.inl rfl))
  have hshow : ∀ (b : Bool) (n : Manager κ),
      (if b = true then n.setHidden d false key else n).world = n.world := by
    intro b n
    obtain ⟨e, he⟩ := setHidden_eq n d false key
    rw [he]
    split_ifs <;> rfl
  have hlast : (m.relocate d key source target).world =
      (if d.isMinimized key && !decide (key ∈ (m.model source).hidden)
        then (n.call target (.addWindow key)).call target (.setUserMinimized key true)
        else n.call target (.addWindow key)).world := by
    unfold relocate
    dsimp only
    rw [hshow, ← hn]
  have h4 : Tidy m (if d.isMinimized key && !decide (key ∈ (m.model source).hidden)
      then (n.call target (.addWindow key)).call target (.setUserMinimized key true)
      else n.call target (.addWindow key)) := by
    split_ifs
    · exact h3.trans hmin
    · exact h3
  exact h4.trans (tidy_of_world hlast)

theorem tidy_onWindowOutputChanged (h : m.Tracking) (d : Desk κ) (key : κ) :
    Tidy m (m.onWindowOutputChanged d key) := by
  unfold onWindowOutputChanged
  split
  · exact tidy_of_world rfl
  · split
    · next hcond =>
      refine (tidy_relocate h hcond.2.2.2 d key (m.connectorFor d key)).trans (tidy_of_world ?_)
      exact congrArg Tracker.world (toTracker_syncTags _)
    · exact tidy_of_world rfl

theorem tidy_activate (h : m.Tracking) (id : UInt32) (d : Desk κ) : Tidy m (m.activate d id) := by
  unfold activate
  split
  · exact tidy_of_world rfl
  · next c _ =>
    split
    · exact tidy_of_world rfl
    · refine (tidy_call h.sound c (.activate id) ((h.sound.owned c).tidier_activate id)).trans
        (tidy_of_world ?_)
      refine (congrArg Tracker.world (toTracker_syncTags _)).trans ?_
      exact congrArg Tracker.world (toTracker_applyPlan _ d _ _)

/-- The user moves a window that is no stray, or moves it to the active set, or not at all. -/
def MovesTidily (m : Manager κ) (key : κ) (targetId : UInt32) : Prop :=
  ∀ c ∈ m.monitorOf key, (m.model c).owner key = (m.model c).active ∨
    key ∈ (m.model c).hidden ∨ key ∈ (m.model c).userMinimized ∨
    targetId ≠ 0 ∧ ((m.model c).findSet targetId = none ∨
      (m.model c).findSet targetId = (m.model c).active ∨
      (m.model c).findSet targetId = (m.model c).owner key)

theorem tidy_moveWindow (h : m.Tracking) {targetId : UInt32} (hk : m.MovesTidily key targetId)
    (d : Desk κ) (connector : Option String) : Tidy m (m.moveWindow d key targetId connector) := by
  unfold moveWindow
  split
  · exact tidy_of_world rfl
  · next home hhome =>
    split_ifs at hhome with hon
    split_ifs
    · exact tidy_of_world rfl
    · exact tidy_of_world rfl
    · refine (tidy_call h.sound home (.moveWindow key targetId)
        (Stage.tidier_moveWindow ?_)).trans (tidy_syncTags _ d _ _)
      rcases hk home hhome with hact | hhid | hmin | htarget
      · exact Or.inl fun hs => hs.2 ⟨hs.1.1, hact⟩
      · exact Or.inl fun hs => hs.1.2.1 (by simpa [Stage.grouping] using hhid)
      · exact Or.inl fun hs => hs.1.2.2 (by simpa [Stage.grouping] using hmin)
      · exact Or.inr htarget

theorem tidy_retireAll {target : String} (gone : List String) : ∀ m : Manager κ, m.Tracking →
    target ∈ m.monitorOrder → (∀ c ∈ gone, c ∉ m.monitorOrder) →
      Tidy m (retireAll target gone m) := by
  induction gone with
  | nil => exact fun m _ _ _ => tidy_of_world rfl
  | cons c gone ih =>
    intro m h htarget hgone
    have hc := hgone c List.mem_cons_self
    have hne : target ≠ c := fun he => hc (he ▸ htarget)
    have hone := reaches_retire h (h.order target htarget) hne hc
    exact (tidy_retire h hne).trans
      (ih _ hone.tracking htarget fun e he => hgone e (List.mem_cons_of_mem _ he))

theorem tidy_checkAll (d : Desk κ) (keys : List κ) : ∀ m : Manager κ, m.Tracking →
    Tidy m (keys.foldl (fun m key => m.onWindowOutputChanged d key) m) := by
  induction keys with
  | nil => exact fun m _ => tidy_of_world rfl
  | cons key keys ih =>
    intro m h
    exact (tidy_onWindowOutputChanged h d key).trans
      (ih _ (reaches_onWindowOutputChanged h d key).tracking)

theorem tidy_syncMonitors (h : m.Tracking) (hr : m.Ready) (d : Desk κ) :
    Tidy m (m.syncMonitors d) := by
  unfold syncMonitors
  split
  · exact tidy_of_world rfl
  · next target rest hcon =>
    split_ifs at hcon with hon
    have htarget : target ∈ d.connectors := hcon ▸ List.mem_cons_self
    have hstart : Tidy m (m.regroupStart d) := tidy_of_world (world_ensureAll d.connectors m h hon)
    have h1 := tidy_retireAll (m.gone d) (m.regroupStart d) (tracking_regroupStart h hon d) htarget
      (gone_notMem m d)
    exact (hstart.trans h1).trans (tidy_checkAll d _ _ (reaches_regroup h hr hon htarget).tracking)

/-- The handlers that make no stray: all but `window_state_changed`, and but for a stray the user
moves to another inactive set. -/
theorem tidy_step (h : m.Tracking) (hr : m.Ready) {e : Handler κ}
    (hstate : ∀ key d, e ≠ .windowStateChanged key d)
    (hmove : ∀ key targetId connector d, e = .moveWindow key targetId connector d →
      m.MovesTidily key targetId) : Tidy m (m.step e) := by
  cases e with
  | applySetting want saved d => exact tidy_applySetting h hr want saved d
  | windowOpened key d => exact tidy_onWindowOpened h d key
  | windowClosed key => exact tidy_onWindowClosed h key
  | windowOutputChanged key d => exact tidy_onWindowOutputChanged h d key
  | windowStateChanged key d => exact absurd rfl (hstate key d)
  | windowFocused key d =>
    obtain ⟨p, hp⟩ := onWindowFocused_eq m d key
    change Tidy m (m.onWindowFocused d key)
    rw [hp]
    exact tidy_of_world rfl
  | idle d =>
    change Tidy m (m.idle d)
    unfold idle
    split
    · exact tidy_of_world rfl
    · next id _ =>
      have hstart : Tidy m { m with pendingActivate := none } := tidy_of_world rfl
      exact hstart.trans (tidy_activate (m := { m with pendingActivate := none }) h id d)
  | activate id d => exact tidy_activate h id d
  | moveWindow key targetId connector d =>
    exact tidy_moveWindow h (hmove key targetId connector d rfl) d connector
  | syncMonitors d => exact tidy_syncMonitors h hr d
  | saveState =>
    change Tidy m m.saveState
    unfold saveState
    split_ifs <;> exact tidy_of_world rfl
  | rehash names windows =>
    refine tidy_of_world ?_
    change (if _ then _ else m).world = m.world
    split_ifs <;> rfl

end Manager

end SingularityShell
