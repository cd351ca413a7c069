import SingularityShell.Manager.Frames

/-!
# The compositor's groups follow the models

After a restart the compositor's groups are all that is left of the sets, so every handler that
changes which set a window is in calls `sync_tags`. One does not: `sync_monitors` merges the model
of a monitor that is gone into another one, where the windows of its active set get another set.

## Main definitions

* `Manager.Synced` — every window was last tagged with the id of its set
* `Manager.KeepsTags` — the handler is not a `sync_monitors` that misses `sync_tags`

## Main results

* `Manager.run_tagsFollow` — every run of such handlers keeps the tags in step with the models
* `Manager.not_tagsFollow_of_unplug` — a monitor is unplugged
-/

namespace SingularityShell

namespace Manager

open Tracker

variable {κ : Type*} {m n : Manager κ} {d : Desk κ} {c : String} {key k : κ}

/-- The last group of every window that `_tags` knows is the one `_tags` has. -/
def Tagged (m : Manager κ) : Prop := ∀ k t, m.tags k = some t → m.sentGroup k = some t

/-- The id of the set that has a window, in the model of its monitor. -/
def setOf (m : Manager κ) (k : κ) : Option UInt32 := (m.monitorOf k).bind fun c => m.ownerId c k

/-- Every window was last tagged with the id of its set. -/
def Synced (m : Manager κ) : Prop := ∀ k ∈ m.windows, m.sentGroup k = m.setOf k

theorem Tagged.congr (h : m.Tagged) (ht : n.toTags = m.toTags) : n.Tagged := by
  intro k t hk
  rw [show n.sentGroup = m.sentGroup from congrArg Tags.sentGroup ht]
  exact h k t ((congrFun (congrArg Tags.tags ht) k).symm.trans hk)

theorem setOf_congr (ht : n.toTracker = m.toTracker) : n.setOf = m.setOf := by
  have : n.model = m.model := congrArg (fun t : Tracker κ => t.world.stage) ht
  unfold setOf ownerId
  rw [this, show n.monitorOf = m.monitorOf from congrArg Tracker.monitorOf ht]

theorem Tracking.setOf_eq (h : m.Tracking) (hc : m.monitorOf k = some c) :
    m.setOf k = some ((m.ownerId c k).getD 0) := by
  obtain ⟨r, hr⟩ := Option.ne_none_iff_exists'.mp ((h.owned k c).mp hc)
  have hr : (m.model c).owner k = some r := hr
  simp [setOf, hc, ownerId, hr]

theorem mem_gone (hr : m.Ready) (hc : c ∈ m.names) : c ∈ m.gone d ↔ c ∉ d.connectors := by
  refine ⟨gone_notMem m d c, fun h => List.mem_filter.mpr ⟨?_, by simpa using h⟩⟩
  exact ordered_ensureAll d.connectors hr.ordered c ((mem_names_ensureAll _).mpr (Or.inl hc))

/-- What holds between two handlers. -/
structure InStep (m : Manager κ) : Prop where
  tracking : m.Tracking
  ready : m.Ready
  tagged : m.Tagged
  synced : m.Synced
  /-- `_switching` is reset before a handler returns. -/
  quiet : m.switching = false

theorem inStep_start : (start : Manager κ).InStep where
  tracking := tracking_start
  ready := ready_start
  tagged k t hk := by cases hk
  synced k hk := absurd hk List.not_mem_nil
  quiet := rfl

variable [DecidableEq κ]

/-! ### `sync_tags` -/

theorem tagged_syncTag (h : m.Tagged) (c : String) (key : κ) : (m.syncTag c key).Tagged := by
  intro k t hk
  unfold syncTag at hk ⊢
  dsimp only at hk ⊢
  split_ifs at hk ⊢ with h1 h2
  · exact h k t hk
  · by_cases hkey : k = key
    · subst hkey
      simpa using hk
    · refine (Function.update_of_ne hkey _ _).trans (h k t ?_)
      exact (Function.update_of_ne hkey _ _).symm.trans hk
  · exact h k t hk

theorem tags_syncTag_self (hkey : key ∈ m.windows) (c : String) :
    (m.syncTag c key).tags key = some ((m.ownerId c key).getD 0) := by
  unfold syncTag
  dsimp only
  split_ifs with h
  · exact h
  · simp

theorem tags_syncTag_of_ne (hk : k ≠ key) (c : String) : (m.syncTag c key).tags k = m.tags k := by
  unfold syncTag
  dsimp only
  split_ifs
  · rfl
  · exact Function.update_of_ne hk _ _
  · rfl

/-- The inner loop of `sync_tags`: the windows of one model get their tags, and those that have
theirs keep them. -/
theorem tags_syncKeys (h : m.Tracking) (keys : List κ) : ∀ n : Manager κ,
    n.toTracker = m.toTracker → n.Tagged → (∀ key ∈ keys, m.monitorOf key = some c) →
      (keys.foldl (fun m key => m.syncTag c key) n).Tagged ∧
        ∀ k ∈ m.windows, k ∈ keys ∨ n.tags k = m.setOf k →
          (keys.foldl (fun m key => m.syncTag c key) n).tags k = m.setOf k := by
  induction keys with
  | nil => exact fun n _ ht _ => ⟨ht, fun k _ hk => hk.resolve_left List.not_mem_nil⟩
  | cons key keys ih =>
    intro n hn ht hkeys
    have hkey := hkeys key List.mem_cons_self
    have hid : n.ownerId c key = m.ownerId c key := by
      have : n.model = m.model := congrArg (fun t : Tracker κ => t.world.stage) hn
      unfold ownerId
      rw [this]
    have htr : (n.syncTag c key).toTracker = n.toTracker := by
      obtain ⟨t, he⟩ := syncTag_eq n c key
      rw [he]
    obtain ⟨h1, h2⟩ := ih (n.syncTag c key) (htr.trans hn)
      (tagged_syncTag ht c key) fun e he => hkeys e (List.mem_cons_of_mem _ he)
    refine ⟨h1, fun k hk hor => h2 k hk ?_⟩
    by_cases hkk : k = key
    · subst hkk
      have hmem : k ∈ n.windows := (congrArg Tracker.windows hn) ▸ hk
      right
      rw [tags_syncTag_self hmem, hid, Tracking.setOf_eq h hkey]
    · rw [tags_syncTag_of_ne hkk]
      exact hor.imp_left fun hk' => (List.mem_cons.mp hk').resolve_left hkk

/-- `sync_tags` gives every window the id of its set. -/
theorem Tagged.synced_syncTags (ht : m.Tagged) (h : m.Tracking) :
    m.syncTags.Tagged ∧ m.syncTags.Synced := by
  have hloop : ∀ (names : List String) (n : Manager κ), n.toTracker = m.toTracker → n.Tagged →
      (names.foldl (fun m c => (m.model c).allWindows.foldl (fun m key => m.syncTag c key) m)
        n).Tagged ∧ ∀ k ∈ m.windows, (∃ c ∈ names, m.monitorOf k = some c) ∨ n.tags k = m.setOf k →
          (names.foldl (fun m c => (m.model c).allWindows.foldl (fun m key => m.syncTag c key) m)
            n).tags k = m.setOf k := by
    intro names
    induction names with
    | nil => exact fun n _ hn => ⟨hn, fun k _ hk => hk.resolve_left (by simp)⟩
    | cons c names ih =>
      intro n hn htn
      have hall : ∀ k, k ∈ (n.model c).allWindows ↔ m.monitorOf k = some c := fun k => by
        have : n.model = m.model := congrArg (fun t : Tracker κ => t.world.stage) hn
        rw [this]
        exact (h.sound.owned c).mem_allWindows.trans (h.owned k c).symm
      obtain ⟨h1, h2⟩ := tags_syncKeys h (n.model c).allWindows n hn htn fun k hk => (hall k).mp hk
      obtain ⟨t, he⟩ := syncKeys_eq c (n.model c).allWindows n
      obtain ⟨h3, h4⟩ := ih _ (by rw [he]; exact hn) h1
      refine ⟨h3, fun k hk hor => h4 k hk ?_⟩
      rcases hor with ⟨e, he, hke⟩ | hset
      · rcases List.mem_cons.mp he with rfl | he
        · exact Or.inr (h2 k hk (Or.inl ((hall k).mpr hke)))
        · exact Or.inl ⟨e, he, hke⟩
      · exact Or.inr (h2 k hk (Or.inr hset))
  obtain ⟨h1, h2⟩ := hloop m.names m rfl ht
  refine ⟨h1, fun k hk => ?_⟩
  have hwin : k ∈ m.windows := (congrArg Tracker.windows (toTracker_syncTags m)) ▸ hk
  obtain ⟨c, hc⟩ := Option.ne_none_iff_exists'.mp ((h.known k).mp hwin)
  have htag := h2 k hwin (Or.inl ⟨c, h.mem_names ((h.owned k c).mp hc), hc⟩)
  rw [setOf_congr (toTracker_syncTags m), Tracking.setOf_eq h hc]
  rw [Tracking.setOf_eq h hc] at htag
  exact h1 k _ htag

/-! ### Windows that keep their set -/

theorem synced_call (h : m.Tracking) (hs : m.Synced) {x : Call κ}
    (hx : ((m.model c).call x).1.owner = (m.model c).owner) : (m.call c x).Synced := by
  intro k hk
  refine (hs k hk).trans ?_
  change _ = (m.monitorOf k).bind fun e => (m.call c x).ownerId e k
  simp only [ownerId_call h.sound (congrFun hx k)]
  rfl

theorem synced_onWindowClosed (h : m.Tracking) (ht : m.Tagged) (hs : m.Synced) (key : κ) :
    (m.onWindowClosed key).Tagged ∧ (m.onWindowClosed key).Synced := by
  unfold onWindowClosed
  split
  · exact ⟨ht, hs⟩
  · next c hc =>
    split
    · refine ⟨fun k t hk => ?_, fun k hk => ?_⟩
      · by_cases hkey : k = key
        · subst hkey
          exact absurd ((Function.update_self _ _ _).symm.trans hk) (by simp)
        · exact ht k t ((Function.update_of_ne hkey _ _).symm.trans hk)
      · have hmem := (h.windows_nodup.mem_erase_iff.mp hk)
        refine (hs k hmem.2).trans ?_
        change _ = (Function.update m.monitorOf key none k).bind fun e =>
          (m.call c (.removeWindow key)).ownerId e k
        have howner : ((m.model c).call (.removeWindow key)).1.owner k = (m.model c).owner k := by
          change ((m.model c).removeWindow key).owner k = _
          rw [Stage.owner_removeWindow, if_neg hmem.1]
        rw [Function.update_of_ne hmem.1]
        simp only [ownerId_call h.sound howner]
        rfl
    · exact ⟨ht, hs⟩

theorem synced_onWindowStateChanged (h : m.Tracking) (ht : m.Tagged) (hs : m.Synced) (d : Desk κ)
    (key : κ) : (m.onWindowStateChanged d key).Tagged ∧ (m.onWindowStateChanged d key).Synced := by
  unfold onWindowStateChanged
  split
  · exact ⟨ht, hs⟩
  · next c hc =>
    split
    · split
      · exact ⟨ht, hs⟩
      · split
        · exact ⟨ht, synced_call h hs (Stage.owner_setUserMinimized _ key _)⟩
        · split
          · split
            · exact ⟨ht, hs⟩
            · exact ⟨ht, synced_call (x := .markShown key) h hs rfl⟩
          · exact ⟨ht, hs⟩
    · exact ⟨ht, hs⟩

/-! ### Handlers that end with `sync_tags` -/

/-- After `sync_tags` everything is in step, if the tracker was in order before it. -/
theorem synced_of_tracking (hn : n.syncTags.Tracking) (ht : m.Tagged) (he : n.toTags = m.toTags) :
    n.syncTags.Tagged ∧ n.syncTags.Synced := by
  rw [toTracker_syncTags] at hn
  exact (ht.congr he).synced_syncTags hn

theorem synced_activate (h : m.Tracking) (ht : m.Tagged) (hs : m.Synced) (id : UInt32)
    (d : Desk κ) : (m.activate d id).Tagged ∧ (m.activate d id).Synced := by
  have hreach := (reaches_activate h id d).tracking
  revert hreach
  unfold activate
  split
  · exact fun _ => ⟨ht, hs⟩
  · split
    · exact fun _ => ⟨ht, hs⟩
    · exact fun hreach => synced_of_tracking hreach ht (toTags_applyPlan _ d _ _)

theorem synced_moveWindow (h : m.Tracking) (ht : m.Tagged) (hs : m.Synced) (d : Desk κ) (key : κ)
    (targetId : UInt32) (connector : Option String) :
    (m.moveWindow d key targetId connector).Tagged ∧
      (m.moveWindow d key targetId connector).Synced := by
  have hreach := (reaches_moveWindow h d key targetId connector).tracking
  revert hreach
  unfold moveWindow
  split
  · exact fun _ => ⟨ht, hs⟩
  · split
    · exact fun _ => ⟨ht, hs⟩
    · split
      · exact fun _ => ⟨ht, hs⟩
      · exact fun hreach => synced_of_tracking hreach ht (toTags_applyPlan _ d _ _)

theorem synced_onWindowOpened (h : m.Tracking) (ht : m.Tagged) (hs : m.Synced) (d : Desk κ)
    (key : κ) : (m.onWindowOpened d key).Tagged ∧ (m.onWindowOpened d key).Synced := by
  have hreach := (reaches_onWindowOpened h d key).tracking
  revert hreach
  unfold onWindowOpened
  split
  · obtain ⟨t, he⟩ := ensureModel_eq m (m.connectorFor d key)
    dsimp only
    split
    · refine fun hreach => synced_of_tracking hreach ht ((toTags_applyPlan _ d _ _).trans ?_)
      rw [he]
      rfl
    · refine fun hreach => synced_of_tracking hreach ht ?_
      rw [he]
      rfl
  · exact fun _ => ⟨ht, hs⟩

/-- The window moves to another monitor's model, or nothing happens. -/
theorem onWindowOutputChanged_cases (h : m.Tracking) (ht : m.Tagged) (d : Desk κ) (key : κ) :
    m.onWindowOutputChanged d key = m ∧
        (m.enabled = true → m.switching = false → ∀ c, m.monitorOf key = some c →
          c = m.connectorFor d key) ∨
      (m.onWindowOutputChanged d key).Tagged ∧ (m.onWindowOutputChanged d key).Synced := by
  have hreach := (reaches_onWindowOutputChanged h d key).tracking
  revert hreach
  unfold onWindowOutputChanged
  split
  · next hnone =>
    exact fun _ => Or.inl ⟨rfl, fun _ _ c hc => absurd (hnone.symm.trans hc) (by simp)⟩
  · next source hsome =>
    split
    · exact fun hreach => Or.inr (synced_of_tracking hreach ht (rest_relocate m d key source _).1)
    · next hcond =>
      refine fun _ => Or.inl ⟨rfl, fun hon hsw c hc => ?_⟩
      obtain rfl : source = c := Option.some_inj.mp (hsome.symm.trans hc)
      by_contra hne
      exact hcond ⟨hon, hsw, hne, h.mem_names ((h.owned key source).mp hc)⟩

theorem synced_enable (h : m.Tracking) (hr : m.Ready) (hoff : m.enabled = false) (d : Desk κ)
    (saved : Saved) : (m.enable d saved).Tagged ∧ (m.enable d saved).Synced := by
  have hreach := (reaches_enable h hr hoff d saved).tracking
  obtain ⟨t, e, he⟩ := enable_eq m d saved
  have hnone : m.resetState.Tagged := fun k t hk => by cases hk
  rw [he] at hreach ⊢
  exact synced_of_tracking hreach hnone rfl

/-! ### Monitors that go -/

/-- A model whose active set has no window is merged without a window changing its set. -/
theorem Apart.owner_adopt_of_empty {s : Stage κ} {other : StageModel κ} (h : s.Owned)
    (ha : s.Apart other) (hempty : ∀ a, other.active = some a → (s.sets a).windows = []) :
    (s.adopt other).1.toHeap = s.toHeap ∧ ∀ k r, (s.adopt other).1.owner k = some r ↔
      s.owner k = some r ∨ other.owner k = some r := by
  obtain ⟨-, h2⟩ := ha.adopt h
  have hsame : s.adoptActive other = s := by
    unfold Stage.adoptActive
    split
    · rfl
    · next a hact => rw [if_pos (by simp [hempty a hact])]
  rw [hsame] at h2
  refine ⟨h2.toHeap, fun k r => ?_⟩
  have ho := ha.owned.owner_iff k r
  change other.owner k = some r ↔
    r ∈ (⟨s.toHeap, other⟩ : Stage κ).refs ∧ k ∈ (s.sets r).windows at ho
  rw [h2.owner_iff, ho]
  refine or_congr_right (and_congr_left fun hk => ?_)
  rw [Stage.mem_refs]
  refine (or_iff_right fun hact => ?_).symm
  rw [hempty r hact] at hk
  cases hk

theorem setOf_retire (h : m.Tracking) {target : String} (hne : target ≠ c)
    (hempty : ∀ a, (m.model c).active = some a → ((m.model c).sets a).windows = []) (k : κ) :
    (m.retire target c).setOf k = m.setOf k := by
  have hap := h.sound.stageApart (h.separate hne)
  obtain ⟨hheap, howner⟩ := Apart.owner_adopt_of_empty (h.sound.owned target) hap hempty
  have hid : ∀ e e' : String, (m.model e').owner k ≠ none → (∀ r, (m.model e').owner k = some r →
      ((m.retire target c).model e).owner k = some r) →
      (m.retire target c).ownerId e k = m.ownerId e' k := by
    intro e e' hsome howned
    obtain ⟨r, hr⟩ := Option.ne_none_iff_exists'.mp hsome
    unfold ownerId
    rw [hr, howned r hr]
    exact congrArg (fun h : Heap κ => some (h.sets r).id) hheap
  have htarget : (m.retire target c).model target = ((m.model target).adopt (m.world.models c)).1 :=
    World.stage_adopt_self hne
  unfold setOf
  rw [monitorOf_retire h]
  cases hk : m.monitorOf k with
  | none => rfl
  | some e =>
    have hsome : (m.model e).owner k ≠ none := (h.owned k e).mp hk
    by_cases hec : e = c
    · subst hec
      rw [if_pos rfl]
      refine hid target e hsome fun r hr => ?_
      rw [htarget]
      exact (howner k r).mpr (Or.inr hr)
    · rw [if_neg (by simpa using hec)]
      refine hid e e hsome fun r hr => ?_
      by_cases het : e = target
      · subst het
        rw [htarget]
        exact (howner k r).mpr (Or.inl hr)
      · rw [show (m.retire target c).model e = _ from World.stage_adopt_of_ne het hec]
        exact hr

/-- The monitors that go have no window in their active set. -/
def QuietlyGone (m : Manager κ) (gone : List String) : Prop :=
  ∀ c ∈ gone, ∀ a, (m.model c).active = some a → ((m.model c).sets a).windows = []

theorem synced_retireAll {target : String} (gone : List String) : ∀ m : Manager κ, m.Tracking →
    target ∈ m.monitorOrder → (∀ c ∈ gone, c ∉ m.monitorOrder) → m.QuietlyGone gone → m.Synced →
      (retireAll target gone m).Synced := by
  induction gone with
  | nil => exact fun m _ _ _ _ hs => hs
  | cons c gone ih =>
    intro m h htarget hgone hquiet hs
    have hc := hgone c List.mem_cons_self
    have hne : target ≠ c := fun he => hc (he ▸ htarget)
    have hone := reaches_retire h (h.order target htarget) hne hc
    have hempty := hquiet c List.mem_cons_self
    refine ih (m.retire target c) hone.tracking htarget
      (fun e he => hgone e (List.mem_cons_of_mem _ he)) (fun e he a hact => ?_) fun k hk => ?_
    · have het : e ≠ target := fun h' => hgone e (List.mem_cons_of_mem _ he) (h' ▸ htarget)
      by_cases hec : e = c
      · subst hec
        rw [show (m.retire target e).model e = _ from World.stage_adopt_other _ _ _] at hact
        cases hact
      · have hap := h.sound.stageApart (h.separate hne)
        have hheap := (Apart.owner_adopt_of_empty (h.sound.owned target) hap hempty).1
        have hmodel : (m.retire target c).model e = m.model e := by
          refine (World.stage_adopt_of_ne het hec).trans ?_
          rw [show ((m.world.stage target).adopt (m.world.models c)).1.toHeap =
            m.world.heap from hheap]
          rfl
        rw [hmodel] at hact ⊢
        exact hquiet e (List.mem_cons_of_mem _ he) a hact
    · rw [setOf_retire h hne hempty]
      exact hs k hk

theorem monitorOf_retireAll {target : String} (gone : List String) : ∀ m : Manager κ, m.Tracking →
    target ∈ m.monitorOrder → (∀ c ∈ gone, c ∉ m.monitorOrder) → ∀ k,
      (retireAll target gone m).monitorOf k =
        (m.monitorOf k).map fun c => if c ∈ gone then target else c := by
  induction gone with
  | nil => exact fun m _ _ _ k => by simp [retireAll]
  | cons c gone ih =>
    intro m h htarget hgone k
    have hc := hgone c List.mem_cons_self
    have hne : target ≠ c := fun he => hc (he ▸ htarget)
    have hone := reaches_retire h (h.order target htarget) hne hc
    have hrest : ∀ e ∈ gone, e ∉ m.monitorOrder := fun e he => hgone e (List.mem_cons_of_mem _ he)
    have htgone : target ∉ gone := fun hc => hrest target hc htarget
    refine (ih (m.retire target c) hone.tracking htarget hrest k).trans ?_
    rw [monitorOf_retire h]
    cases m.monitorOf k with
    | none => rfl
    | some e =>
      by_cases hec : e = c
      · simp [hec, htgone]
      · simp [hec]

/-- The monitor a window is on once the monitors that are gone have been merged into the target. -/
def homeAfter (m : Manager κ) (d : Desk κ) (target : String) (k : κ) : Option String :=
  (m.monitorOf k).map fun c => if c ∈ d.connectors then c else target

/-- What `connector_for` gives once every monitor that is there, and no other, has a model. -/
def placeAfter (d : Desk κ) (target : String) (k : κ) : String :=
  ((d.outputs k).find? fun c => c ∈ d.connectors).getD target

theorem regroup_fields (m : Manager κ) (d : Desk κ) (target : String) :
    (m.regroup d target).enabled = m.enabled ∧ (m.regroup d target).windows = m.windows := by
  obtain ⟨h1, -, h2⟩ := retireAll_fields target (m.gone d) (m.regroupStart d)
  exact ⟨h1.trans (enabled_ensureAll d.connectors), h2.trans (windows_ensureAll d.connectors)⟩

/-- What `regroup` leaves alone, and where it leaves the windows. -/
theorem regroup_spec (h : m.Tracking) (hr : m.Ready) (hon : m.enabled = true) {target : String}
    {rest : List String} (hd : d.connectors = target :: rest) :
    (m.regroup d target).toTags = m.toTags ∧ (m.regroup d target).toSession = m.toSession ∧
      (∀ k, (m.regroup d target).monitorOf k = m.homeAfter d target k) ∧
      ∀ k, (m.regroup d target).connectorFor d k = placeAfter d target k := by
  have htarget : target ∈ d.connectors := hd ▸ List.mem_cons_self
  have h2 := tracking_regroupStart h hon d
  obtain ⟨t, he⟩ := ensureAll_eq m d.connectors
  obtain ⟨t', he'⟩ := retireAll_eq target (m.gone d) (m.regroupStart d)
  have hmon : (m.regroupStart d).monitorOf = m.monitorOf := monitorOf_ensureAll d.connectors
  have horder : (m.regroup d target).monitorOrder = d.connectors :=
    (retireAll_fields target (m.gone d) (m.regroupStart d)).2.1
  have hreach := reaches_regroup h hr hon htarget
  have hnames : ∀ c, c ∈ (m.regroup d target).names ↔ c ∈ d.connectors := fun c =>
    ⟨fun hc => horder ▸ (hreach.ready hr).ordered c hc,
      fun hc => hreach.tracking.order c (horder.symm ▸ hc)⟩
  refine ⟨?_, ?_, fun k => ?_, fun k => ?_⟩
  · rw [regroup_eq, he', regroupStart, he]
  · rw [regroup_eq, he', regroupStart, he]
  · rw [regroup_eq, monitorOf_retireAll (m.gone d) _ h2 htarget (gone_notMem m d), hmon]
    refine Option.map_congr fun c hc => ?_
    have hmem := mem_gone (d := d) hr (h.mem_names ((h.owned k c).mp hc))
    by_cases hcd : c ∈ d.connectors
    · rw [if_pos hcd, if_neg fun hg => hmem.mp hg hcd]
    · rw [if_neg hcd, if_pos (hmem.mpr hcd)]
  · unfold connectorFor placeAfter primaryConnector
    rw [horder, hd]
    simp only [hnames, hd]

/-- The last loop of `sync_monitors` keeps the tags in step. -/
theorem synced_checkAll (d : Desk κ) (keys : List κ) : ∀ n : Manager κ, n.Tracking → n.Tagged →
    n.Synced → (keys.foldl (fun m key => m.onWindowOutputChanged d key) n).Tagged ∧
      (keys.foldl (fun m key => m.onWindowOutputChanged d key) n).Synced := by
  induction keys with
  | nil => exact fun n _ ht hs => ⟨ht, hs⟩
  | cons key keys ih =>
    intro n h ht hs
    have hone := reaches_onWindowOutputChanged h d key
    rw [List.foldl_cons]
    rcases onWindowOutputChanged_cases h ht d key with ⟨he, -⟩ | ⟨ht', hs'⟩
    · rw [he]
      exact ih n h ht hs
    · exact ih _ hone.tracking ht' hs'

/-- It brings them back in step when one window moves. -/
theorem synced_checkAll_of_move (d : Desk κ) (keys : List κ) : ∀ n : Manager κ, n.Tracking →
    n.Tagged → n.enabled = true → n.switching = false →
      (∃ k ∈ keys, n.monitorOf k ≠ none ∧ n.monitorOf k ≠ some (n.connectorFor d k)) →
        (keys.foldl (fun m key => m.onWindowOutputChanged d key) n).Tagged ∧
          (keys.foldl (fun m key => m.onWindowOutputChanged d key) n).Synced := by
  induction keys with
  | nil => exact fun n _ _ _ _ ⟨k, hk, _⟩ => absurd hk List.not_mem_nil
  | cons key keys ih =>
    intro n h ht hon hsw hmove
    have hone := reaches_onWindowOutputChanged h d key
    rw [List.foldl_cons]
    rcases onWindowOutputChanged_cases h ht d key with ⟨he, hstay⟩ | ⟨ht', hs'⟩
    · obtain ⟨k, hk, hsome, hne⟩ := hmove
      rw [he]
      refine ih n h ht hon hsw ⟨k, (List.mem_cons.mp hk).resolve_left fun hkey => ?_, hsome, hne⟩
      obtain ⟨c, hc⟩ := Option.ne_none_iff_exists'.mp hsome
      exact hne (hc.trans (congrArg some (hkey ▸ hstay hon hsw c (hkey ▸ hc))))
    · exact synced_checkAll d keys _ hone.tracking ht' hs'

/-- `sync_monitors` does not need `sync_tags`, because the active sets of the monitors that are
gone have no window, or it calls it, because a window moves on to another monitor. -/
def KeepsTags (m : Manager κ) : Handler κ → Prop
  | .syncMonitors d =>
    match if m.enabled then d.connectors else [] with
    | [] => True
    | target :: _ =>
      (∀ c ∈ m.monitorOrder, c ∉ d.connectors →
        ∀ a ∈ (m.model c).active, ((m.model c).sets a).windows = []) ∨
      ∃ k ∈ m.windows, m.homeAfter d target k ≠ some (placeAfter d target k)
  | _ => True

theorem synced_syncMonitors (h : m.Tracking) (hr : m.Ready) (ht : m.Tagged) (hs : m.Synced)
    (hsw : m.switching = false) (hk : m.KeepsTags (.syncMonitors d)) :
    (m.syncMonitors d).Tagged ∧ (m.syncMonitors d).Synced := by
  unfold KeepsTags at hk
  unfold syncMonitors
  split
  · exact ⟨ht, hs⟩
  · next target rest hcon =>
    simp only [hcon] at hk
    split_ifs at hcon with hon
    have htarget : target ∈ d.connectors := hcon ▸ List.mem_cons_self
    have hreach := reaches_regroup h hr hon htarget
    obtain ⟨htags, hsession, hmon, hplace⟩ := regroup_spec h hr hon hcon
    have ht' : (m.regroup d target).Tagged := ht.congr htags
    obtain ⟨hon', hwin⟩ := regroup_fields m d target
    rcases hk with hquiet | ⟨k, hkw, hne⟩
    · refine synced_checkAll d _ _ hreach.tracking ht' ?_
      have hworld : (m.regroupStart d).world = m.world := world_ensureAll d.connectors m h hon
      have hmodel : (m.regroupStart d).model = m.model := congrArg World.stage hworld
      have hmon' : (m.regroupStart d).monitorOf = m.monitorOf := monitorOf_ensureAll d.connectors
      obtain ⟨t, he⟩ := ensureAll_eq m d.connectors
      have hsent : (m.regroupStart d).sentGroup = m.sentGroup := by rw [regroupStart, he]
      refine synced_retireAll (m.gone d) (m.regroupStart d) (tracking_regroupStart h hon d) htarget
        (gone_notMem m d) (fun c hc a hact => ?_) fun k hkw => ?_
      · rw [hmodel] at hact ⊢
        by_cases hord : c ∈ m.monitorOrder
        · exact hquiet c hord (gone_notMem m d c hc) a hact
        · have hfresh := h.absent c fun hn => hord (hr.ordered c hn)
          have hact : (m.world.models c).active = some a := hact
          rw [hfresh] at hact
          cases hact
      · rw [hsent, show (m.regroupStart d).setOf k = m.setOf k by
          unfold setOf ownerId; rw [hmodel, hmon']]
        exact hs k ((windows_ensureAll d.connectors) ▸ hkw)
    · refine synced_checkAll_of_move d _ _ hreach.tracking ht' (hon'.trans hon) ?_
        ⟨k, hwin ▸ hkw, ?_, ?_⟩
      · exact (congrArg Session.switching hsession).trans hsw
      · rw [hmon, homeAfter, Ne, Option.map_eq_none_iff]
        exact (h.known k).mp hkw
      · rw [hmon, hplace]
        exact hne

/-! ### Runs -/

theorem inStep_step (m : Manager κ) (e : Handler κ) (h : m.InStep) (hk : m.KeepsTags e) :
    (m.step e).InStep := by
  have hreach := reaches_step h.tracking h.ready e
  suffices hs : (m.step e).Tagged ∧ (m.step e).Synced from
    ⟨hreach.tracking, hreach.ready h.ready, hs.1, hs.2, switching_step h.quiet e⟩
  obtain ⟨htr, hr, ht, hs, hsw⟩ := h
  cases e with
  | applySetting want saved d =>
    change (m.applySetting d want saved).Tagged ∧ (m.applySetting d want saved).Synced
    unfold applySetting
    split_ifs with heq hwant
    · exact ⟨ht, hs⟩
    · rw [hwant] at heq
      exact synced_enable htr hr (Bool.eq_false_iff.mpr fun hon => heq hon.symm) d saved
    · exact ⟨fun k t hk => (by cases hk), fun k hk => absurd hk List.not_mem_nil⟩
  | windowOpened key d => exact synced_onWindowOpened htr ht hs d key
  | windowClosed key => exact synced_onWindowClosed htr ht hs key
  | windowOutputChanged key d =>
    change (m.onWindowOutputChanged d key).Tagged ∧ (m.onWindowOutputChanged d key).Synced
    rcases onWindowOutputChanged_cases htr ht d key with ⟨he, -⟩ | hsync
    · rw [he]
      exact ⟨ht, hs⟩
    · exact hsync
  | windowStateChanged key d => exact synced_onWindowStateChanged htr ht hs d key
  | windowFocused key d =>
    obtain ⟨p, hp⟩ := onWindowFocused_eq m d key
    change (m.onWindowFocused d key).Tagged ∧ (m.onWindowFocused d key).Synced
    rw [hp]
    exact ⟨ht, hs⟩
  | idle d =>
    change (m.idle d).Tagged ∧ (m.idle d).Synced
    unfold idle
    split
    · exact ⟨ht, hs⟩
    · exact synced_activate (m := { m with pendingActivate := none }) htr ht hs _ d
  | activate id d => exact synced_activate htr ht hs id d
  | moveWindow key targetId connector d =>
    exact synced_moveWindow htr ht hs d key targetId connector
  | syncMonitors d => exact synced_syncMonitors htr hr ht hs hsw hk
  | saveState =>
    change m.saveState.Tagged ∧ m.saveState.Synced
    unfold saveState
    split_ifs <;> exact ⟨ht, hs⟩
  | rehash names windows =>
    change (if _ then _ else m).Tagged ∧ (if _ then _ else m).Synced
    split_ifs with hperm
    · exact ⟨ht, fun k hk => hs k (hperm.2.mem_iff.mp hk)⟩
    · exact ⟨ht, hs⟩

/-- Every tracked window carries, as the last group that was sent, the id of the set that owns it
in the model of its monitor. -/
def TagsFollow (m : Manager κ) : Prop :=
  ∀ k ∈ m.windows, ∃ c r, m.monitorOf k = some c ∧ (m.model c).owner k = some r ∧
    m.sentGroup k = some (m.world.heap.sets r).id

/-- **The tags follow the models**, after every handler of every run in which `sync_monitors` calls
`sync_tags` when it has to. -/
theorem run_tagsFollow (es : List (Handler κ)) (hg : Transition.Guarded step KeepsTags start es) :
    (Transition.run step start es : Manager κ).TagsFollow := by
  have h := hg.invariant inStep_step inStep_start
  intro k hk
  obtain ⟨c, hc⟩ := Option.ne_none_iff_exists'.mp ((h.tracking.known k).mp hk)
  obtain ⟨r, hr⟩ := Option.ne_none_iff_exists'.mp ((h.tracking.owned k c).mp hc)
  refine ⟨c, r, hc, hr, (h.synced k hk).trans ?_⟩
  simp [setOf, hc, ownerId, show (Manager.model _ c).owner k = some r from hr]
  rfl

/-- The second monitor is replaced by a third one, and its window moves there. -/
theorem run_tagsFollow_replace : TagsFollow (Transition.run step (start : Manager String)
    [.applySetting true .none (.twoMonitors fun _ => 0),
      .syncMonitors { Desk.twoMonitors fun _ => 0 with
        connectors := ["DP-1", "DP-3"]
        outputs := fun key => if key = "a" then ["DP-1"] else ["DP-3"] }]) :=
  run_tagsFollow _ ⟨trivial, Or.inr ⟨"b", by decide, by decide⟩, trivial⟩

/-- The second monitor is unplugged. Its window joins the set of the first one, and keeps the tag of
its old set. -/
theorem not_tagsFollow_of_unplug : ¬∀ es : List (Handler String),
    (Transition.run step (start : Manager String) es).TagsFollow := by
  intro h
  obtain ⟨c, r, hc, hr, hsent⟩ := h [.applySetting true .none (.twoMonitors fun _ => 0),
    .syncMonitors { Desk.twoMonitors fun _ => 0 with connectors := ["DP-1"] }] "b" (by decide)
  obtain rfl : c = "DP-1" := Option.some_inj.mp (hc.symm.trans (by decide))
  obtain rfl : r = 0 := Option.some_inj.mp (hr.symm.trans (by decide))
  exact absurd hsent (by decide)

end Manager

end SingularityShell
