import SingularityShell.Manager.Strays

/-!
# Windows that surface by themselves

When an application brings back a window of an inactive set, or the user focuses one, the manager
activates its set: not at once, but from an idle callback, of which there is one. The model is told
at once that the window is shown, so that until the callback runs the window is a stray. A second
request takes the place of the first, and then nobody activates the set of the first stray.

## Main definitions

* `Manager.asks` — the set an event asks for
* `Manager.Undisturbed` — it asks for no other set than that of the strays there are
* `Manager.Surfaced` — no stray is forgotten

## Main results

* `Manager.run_surfaced` — in every run of such events no stray is forgotten
* `Manager.not_surfaced_of_two` — two windows come back before the callback runs
-/

namespace SingularityShell

namespace Manager

open Tracker

variable {κ : Type*} {m : Manager κ} {d : Desk κ} {c : String} {key k : κ} {r : ℕ} {id : UInt32}

/-- What holds between two handlers. -/
structure Watched (m : Manager κ) : Prop where
  tracking : m.Tracking
  ready : m.Ready
  quiet : m.switching = false
  /-- The set of every stray is the one that the callback activates. -/
  kept : ∀ c, ∀ k ∈ (m.model c).grouping.stray, m.ownerId c k = m.pendingActivate

theorem watched_start : (start : Manager κ).Watched where
  tracking := tracking_start
  ready := ready_start
  quiet := rfl
  kept c k hk := by
    rw [show (start : Manager κ).model c = ⟨.initial, .fresh⟩ from rfl, Stage.stray_fresh] at hk
    exact hk.elim

/-- The set of a stray is not active. -/
theorem active_ne_of_stray (hk : k ∈ (m.model c).grouping.stray)
    (hr : (m.model c).owner k = some r) : (m.model c).active ≠ some r := fun ha =>
  (Grouping.mem_stray.mp hk).2 ⟨(Grouping.mem_stray.mp hk).1.1, hr.trans ha.symm⟩

variable [DecidableEq κ]

/-- The set the event asks `activate_later` for. -/
def asks (m : Manager κ) : Handler κ → Option UInt32
  | .windowStateChanged key d =>
    (m.monitorOf key).bind fun c =>
      if m.enabled ∧ c ∈ m.names ∧ m.expected key ≠ some (d.isMinimized key) ∧
        (m.model c).owner key ≠ (m.model c).active ∧ d.isMinimized key = false
      then m.ownerId c key else none
  | .windowFocused key d =>
    (m.monitorOf key).bind fun c =>
      if m.enabled ∧ m.switching = false ∧ c ∈ m.names ∧
        (m.model c).owner key ≠ (m.model c).active ∧
        key ∈ m.windows ∧ d.isMinimized key = false ∧ m.expected key ≠ some true
      then m.ownerId c key else none
  | _ => none

/-- The id of an exposed set is the id of no other set. -/
def OneSet (m : Manager κ) : Prop :=
  ∀ c ∈ m.names, ∀ r ∈ (m.model c).exposed, ∀ c' ∈ m.names, ∀ q ∈ (m.model c').refs,
    (m.world.heap.sets q).id = (m.world.heap.sets r).id → c' = c ∧ q = r

instance (m : Manager κ) : Decidable m.OneSet := inferInstanceAs (Decidable (∀ c ∈ m.names,
  ∀ r ∈ (m.model c).exposed, ∀ c' ∈ m.names, ∀ q ∈ (m.model c').refs,
    (m.world.heap.sets q).id = (m.world.heap.sets r).id → c' = c ∧ q = r))

-- The one id that an event asks for is tried, and not every `UInt32`.
instance (o : Option UInt32) (p : UInt32 → Prop) [DecidablePred p] : Decidable (∀ id ∈ o, p id) :=
  Option.decidableForallMem o

/-- The event asks for no other set than the exposed one. When the callback runs, its id names one
set, and the user does not move a stray to another inactive set. -/
def Undisturbed (m : Manager κ) (e : Handler κ) : Prop :=
  (∀ id ∈ m.asks e, ∀ c ∈ m.names, ∀ r ∈ (m.model c).exposed, (m.world.heap.sets r).id = id) ∧
    match e with
    | .idle _ => m.OneSet
    | .moveWindow key targetId _ _ => m.MovesTidily key targetId
    | _ => True

/-! ### Strays and exposed sets -/

theorem Tracking.mem_exposed (h : m.Tracking) : r ∈ (m.model c).exposed ↔
    ∃ k ∈ (m.model c).grouping.stray, (m.model c).owner k = some r :=
  (h.sound.owned c).mem_exposed_iff

/-- What holds of the id of every exposed set holds of every stray. -/
theorem Tracking.ownerId_of_exposed (h : m.Tracking)
    (hid : ∀ c ∈ m.names, ∀ r ∈ (m.model c).exposed, (m.world.heap.sets r).id = id)
    (hk : k ∈ (m.model c).grouping.stray) : m.ownerId c k = some id := by
  obtain ⟨r, hr⟩ := Option.ne_none_iff_exists'.mp (Grouping.mem_stray.mp hk).1.1
  have hr : (m.model c).owner k = some r := hr
  have hc : c ∈ m.names := h.mem_names (Grouping.mem_stray.mp hk).1.1
  unfold ownerId
  rw [hr]
  exact congrArg some (hid c hc r ((Tracking.mem_exposed h).mpr ⟨k, hk, hr⟩))

/-! ### Events -/

/-- A window changes its state: nothing becomes a stray, or the window does, and its set is asked
for. -/
theorem onWindowStateChanged_cases (h : m.Tracking) (d : Desk κ) (key : κ) :
    (Tidy m (m.onWindowStateChanged d key) ∧
      (m.onWindowStateChanged d key).pendingActivate = m.pendingActivate) ∨
    ∃ c id, m.asks (.windowStateChanged key d) = some id ∧ m.ownerId c key = some id ∧
      m.onWindowStateChanged d key = (m.call c (.markShown key)).activateLater id := by
  unfold onWindowStateChanged
  split
  · exact Or.inl ⟨tidy_of_world rfl, rfl⟩
  · next c hc =>
    split
    · next hon =>
      split
      · exact Or.inl ⟨tidy_of_world rfl, rfl⟩
      · next hexp =>
        split
        · next hact =>
          exact Or.inl ⟨tidy_call h.sound c (.setUserMinimized key (d.isMinimized key))
            (Stage.tidier_setUserMinimized (Or.inr hact)), rfl⟩
        · next hact =>
          split
          · next id hid =>
            split
            · exact Or.inl ⟨tidy_of_world rfl, rfl⟩
            · next hmin =>
              refine Or.inr ⟨c, id, ?_, hid, rfl⟩
              simp only [asks]
              rw [hc, Option.bind_some, if_pos ⟨hon.1, hon.2, hexp, hact, by simpa using hmin⟩]
              exact hid
          · exact Or.inl ⟨tidy_of_world rfl, rfl⟩
    · exact Or.inl ⟨tidy_of_world rfl, rfl⟩

theorem onWindowFocused_cases (m : Manager κ) (d : Desk κ) (key : κ) :
    m.onWindowFocused d key = m ∨ ∃ id, m.asks (.windowFocused key d) = some id ∧
      m.onWindowFocused d key = m.activateLater id := by
  unfold onWindowFocused
  split
  · exact Or.inl rfl
  · next c hc =>
    split
    · next hon =>
      split
      · exact Or.inl rfl
      · next id hid =>
        split
        · exact Or.inl rfl
        · next hact =>
          split
          · exact Or.inl rfl
          · next hvis =>
            push Not at hvis
            refine Or.inr ⟨id, ?_, rfl⟩
            simp only [asks]
            rw [hc, Option.bind_some, if_pos ⟨hon.1, hon.2.1, hon.2.2, hact, hvis.1,
              by simpa using hvis.2.1, hvis.2.2⟩]
            exact hid
    · exact Or.inl rfl

/-- The strays once a window is marked as shown: those from before, and the window. -/
theorem kept_markShown (h : m.Tracking) (hkey : m.ownerId c key = some id)
    (hid : ∀ c ∈ m.names, ∀ r ∈ (m.model c).exposed, (m.world.heap.sets r).id = id) (e : String)
    (hk : k ∈ ((m.call c (.markShown key)).model e).grouping.stray) :
    (m.call c (.markShown key)).ownerId e k = some id := by
  have howner : ((m.model c).call (.markShown key)).1.owner k = (m.model c).owner k := rfl
  rw [ownerId_call h.sound howner]
  by_cases hec : e = c
  · subst hec
    have hgroup :
        ((m.model e).call (.markShown key)).1.grouping = (m.model e).grouping.unmark key :=
      Stage.grouping_markShown _ key
    rw [model_call_self, hgroup] at hk
    rcases Grouping.mem_stray_unmark hk with hk | rfl
    · exact Tracking.ownerId_of_exposed h hid hk
    · exact hkey
  · rw [grouping_call_of_ne m hec] at hk
    exact Tracking.ownerId_of_exposed h hid hk

/-! ### The callback -/

/-- The set of a stray is found by its id, and `activate` is called on its model. -/
theorem model_activate (h : m.Tracking) (hr : m.Ready) (hone : m.OneSet)
    (hk : k ∈ (m.model c).grouping.stray) (howner : (m.model c).owner k = some r) (d : Desk κ) :
    (m.model c).findSet (m.world.heap.sets r).id = some r ∧
      (m.activate d (m.world.heap.sets r).id).model c =
        ((m.model c).activate (m.world.heap.sets r).id).1 := by
  have hsome : (m.model c).owner k ≠ none := by simp [howner]
  have hc : c ∈ m.names := h.mem_names hsome
  have hon : m.enabled = true := by
    by_contra hoff
    rw [hr.off (by simpa using hoff)] at hc
    cases hc
  have hexp := (Tracking.mem_exposed h).mpr ⟨k, hk, howner⟩
  have href := (((h.sound.owned c).owner_iff k r).mp howner).1
  have hfind : (m.model c).findSet (m.world.heap.sets r).id = some r :=
    Lists.find?_eq_some_of_unique href (decide_eq_true rfl) fun q hq he =>
      (hone c hc r hexp c hc q hq (of_decide_eq_true he)).2
  have hmonitor : m.monitorOfSet (m.world.heap.sets r).id = some c := by
    refine Lists.find?_eq_some_of_unique hc (by rw [hfind]; rfl) fun c' hc' hs => ?_
    obtain ⟨q, hq⟩ := Option.isSome_iff_exists.mp hs
    obtain ⟨hq, hid⟩ := Stage.findSet_mem hq
    exact (hone c hc r hexp c' hc' q hq hid).1
  refine ⟨hfind, ?_⟩
  unfold activate
  rw [if_pos hon, hmonitor]
  dsimp only
  rw [hfind, if_neg (Ne.symm (active_ne_of_stray hk howner))]
  have hworld := (toTracker_syncTags { applyPlan (({ m with switching := true } : Manager κ).call c
    (.activate (m.world.heap.sets r).id)) d (m.planOf c (.activate (m.world.heap.sets r).id)).hide
      (m.planOf c (.activate (m.world.heap.sets r).id)).show_ with switching := false }).trans
    (toTracker_applyPlan _ d _ _)
  exact (congrArg (fun t : Tracker κ => t.world.stage c) hworld).trans (World.stage_put_self _)

/-- The set of a stray becomes active. -/
theorem active_activate (h : m.Tracking) (hr : m.Ready) (hone : m.OneSet)
    (hk : k ∈ (m.model c).grouping.stray) (howner : (m.model c).owner k = some r) (d : Desk κ) :
    ((m.activate d (m.world.heap.sets r).id).model c).active = some r := by
  obtain ⟨hfind, hmodel⟩ := model_activate h hr hone hk howner d
  rw [hmodel, Stage.activate, hfind]
  dsimp only
  rw [if_neg (active_ne_of_stray hk howner)]
  rfl

/-- When the callback activates the set of every stray, there is none afterwards. -/
theorem noStray_activate (h : m.Tracking) (hr : m.Ready) (hone : m.OneSet)
    (hkept : ∀ c, ∀ k ∈ (m.model c).grouping.stray, m.ownerId c k = some id) (d : Desk κ) :
    (m.activate d id).NoStray := by
  have htidy := tidy_activate h id d
  have htr := (reaches_activate h id d).tracking
  intro c
  refine Set.eq_empty_of_forall_notMem fun k hk => ?_
  obtain ⟨c', hk', -⟩ := htidy c k hk
  obtain ⟨r, howner⟩ := Option.ne_none_iff_exists'.mp (Grouping.mem_stray.mp hk').1.1
  have howner : (m.model c').owner k = some r := howner
  obtain rfl : (m.world.heap.sets r).id = id := by
    have := hkept c' k hk'
    rw [ownerId, howner] at this
    exact Option.some_inj.mp this
  -- The window is in the set that is active now.
  have hact := active_activate h hr hone hk' howner d
  have hmodel := (model_activate h hr hone hk' howner d).2
  have howner' : ((m.activate d (m.world.heap.sets r).id).model c').owner k = some r := by
    rw [hmodel]
    exact (congrFun ((h.sound.owned c').owner_activate _) k).trans howner
  obtain rfl : c = c' := htr.unique (Grouping.mem_stray.mp hk).1.1
    (show ((m.activate d (m.world.heap.sets r).id).model c').owner k ≠ none by simp [howner'])
  exact active_ne_of_stray hk howner' hact

/-! ### Runs -/

theorem watched_step (m : Manager κ) (e : Handler κ) (h : m.Watched) (hu : m.Undisturbed e) :
    (m.step e).Watched := by
  have hreach := reaches_step h.tracking h.ready e
  refine ⟨hreach.tracking, hreach.ready h.ready, switching_step h.quiet e, fun c k hk => ?_⟩
  -- A handler that makes no stray and leaves the callback alone.
  have hkeep : Tidy m (m.step e) → (m.step e).pendingActivate = m.pendingActivate →
      (m.step e).ownerId c k = (m.step e).pendingActivate := by
    intro htidy hpend
    obtain ⟨c', hk', hid⟩ := htidy c k hk
    rw [hid, hpend, h.kept c' k hk']
  have hother : ¬e.Surfacing → (m.step e).ownerId c k = (m.step e).pendingActivate := by
    intro he
    refine hkeep (tidy_step h.tracking h.ready ?_ ?_)
      (congrArg Session.pendingActivate (toSession_step h.quiet he))
    · rintro key d rfl
      exact he trivial
    · rintro key targetId connector d rfl
      exact hu.2
  cases e with
  | windowStateChanged key d =>
    rcases onWindowStateChanged_cases h.tracking d key with ⟨ht, hp⟩ | ⟨c', id, hask, hkey, he⟩
    · exact hkeep ht hp
    · rw [show m.step (.windowStateChanged key d) = m.onWindowStateChanged d key from rfl,
        he] at hk ⊢
      exact kept_markShown h.tracking hkey (hu.1 id hask) c hk
  | windowFocused key d =>
    rcases onWindowFocused_cases m d key with he | ⟨id, hask, he⟩
    · exact hkeep (tidy_of_world (congrArg (fun n : Manager κ => n.world) he))
        (congrArg (fun n : Manager κ => n.pendingActivate) he)
    · rw [show m.step (.windowFocused key d) = m.onWindowFocused d key from rfl, he] at hk ⊢
      exact Tracking.ownerId_of_exposed h.tracking (hu.1 id hask) hk
  | idle d =>
    change k ∈ ((m.idle d).model c).grouping.stray at hk
    change (m.idle d).ownerId c k = (m.idle d).pendingActivate
    unfold idle at hk ⊢
    split at hk
    · exact h.kept c k hk
    · next id hpend =>
      have hno := @noStray_activate κ { m with pendingActivate := none } id _ h.tracking
        h.ready hu.2 (fun c k hk => (h.kept c k hk).trans hpend) d
      rw [hno c] at hk
      exact hk.elim
  | applySetting | windowOpened | windowClosed | windowOutputChanged | activate | moveWindow
  | syncMonitors | saveState | rehash => exact hother id

/-- No window that came back by itself is forgotten. -/
structure Surfaced (m : Manager κ) : Prop where
  /-- When no activation is pending, every window of an inactive set is hidden or minimised. -/
  settled : m.pendingActivate = none → ∀ c ∈ m.names, ∀ r ∈ (m.model c).inactive,
    ∀ k ∈ ((m.model c).sets r).windows, k ∈ (m.model c).hidden ∨ k ∈ (m.model c).userMinimized
  /-- While a window of an inactive set is neither, the activation of its set is pending. -/
  kept : ∀ c ∈ m.names, ∀ r ∈ (m.model c).inactive, ∀ k ∈ ((m.model c).sets r).windows,
    k ∉ (m.model c).hidden → k ∉ (m.model c).userMinimized →
      m.pendingActivate = some ((m.model c).sets r).id
  /-- The callback makes the set active. -/
  answered : ∀ d, m.OneSet → ∀ c ∈ m.names, ∀ r ∈ (m.model c).exposed,
    ((m.step (.idle d)).model c).active = some r

theorem Watched.surfaced (h : m.Watched) : m.Surfaced := by
  have hpend : ∀ c, ∀ r ∈ (m.model c).exposed,
      m.pendingActivate = some (m.world.heap.sets r).id := by
    intro c r hr
    obtain ⟨k, hk, howner⟩ := (Tracking.mem_exposed h.tracking).mp hr
    rw [← h.kept c k hk, ownerId, howner]
    rfl
  refine ⟨fun hnone c _ r hr k hk => ?_, fun c _ r hr k hk hh hm => ?_, fun d hone c _ r hr => ?_⟩
  · by_contra hc
    push Not at hc
    have := hpend c r (Stage.mem_exposed.mpr ⟨hr, k, hk, hc⟩)
    rw [hnone] at this
    cases this
  · exact hpend c r (Stage.mem_exposed.mpr ⟨hr, k, hk, hh, hm⟩)
  · obtain ⟨k, hk, howner⟩ := (Tracking.mem_exposed h.tracking).mp hr
    have hp := hpend c r hr
    change ((m.idle d).model c).active = some r
    unfold idle
    rw [hp]
    exact active_activate (m := { m with pendingActivate := none }) h.tracking h.ready hone hk
      howner d

/-- **No window that surfaces is forgotten**, in every run of every handler in which, before the
callback runs, no event asks for another set than that of the windows that have surfaced. -/
theorem run_surfaced (es : List (Handler κ)) (hg : Transition.Guarded step Undisturbed start es) :
    (Transition.run step start es : Manager κ).Surfaced :=
  (hg.invariant watched_step watched_start).surfaced

/-- One monitor and three groups with a window each. The stage has hidden the last two, and the
windows of `back` have been brought back since. -/
def threeGroups (back : List String) : Desk String where
  connectors := ["DP-1"]
  outputs _ := ["DP-1"]
  mru := ["a", "b", "c"]
  mru_nodup := by decide
  isStageWindow _ := true
  isMinimized key := key ≠ "a" && key ∉ back
  appId key := key
  groupsSupported := true
  group key := if key = "a" then 1 else if key = "b" then 2 else 3
  hidden key := key ≠ "a"

/-- One window comes back and is focused; when the callback has run, the other one does. -/
theorem run_surfaced_twice : Surfaced (Transition.run step (start : Manager String)
    [.applySetting true .none (threeGroups []), .windowStateChanged "b" (threeGroups ["b"]),
      .windowFocused "b" (threeGroups ["b"]), .idle (threeGroups ["b"]),
      .windowStateChanged "c" (threeGroups ["b", "c"]), .idle (threeGroups ["b", "c"])]) :=
  run_surfaced _ ⟨⟨by decide, trivial⟩, ⟨by decide, trivial⟩, ⟨by decide, trivial⟩,
    ⟨by decide, by decide⟩, ⟨by decide, trivial⟩, ⟨by decide, by decide⟩, trivial⟩

/-- Both windows come back before the callback runs. The second request takes the place of the
first, and the first window stays on screen in a set that is not active. -/
theorem not_surfaced_of_two : ¬∀ es : List (Handler String),
    (Transition.run step (start : Manager String) es).Surfaced := by
  intro h
  have hb := (h [.applySetting true .none (threeGroups []),
    .windowStateChanged "b" (threeGroups ["b"]), .windowStateChanged "c" (threeGroups ["b", "c"]),
    .idle (threeGroups ["b", "c"])]).settled (by decide) "DP-1" (by decide) 1 (by decide) "b"
    (by decide)
  exact absurd hb (by decide)

end Manager

end SingularityShell
