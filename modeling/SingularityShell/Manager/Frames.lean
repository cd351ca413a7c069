import SingularityShell.Manager.Handlers

/-!
# What a handler leaves alone

Most of what a handler is made of concerns the tracker only; hiding and showing windows concerns
`_expected`, and `sync_tags` the tags. The state of `activate_later` belongs to three handlers.

## Main results

* `Manager.enable_eq` — what `enable` leaves behind
* `Manager.toSession_step`, `Manager.switching_step` — the session
-/

namespace SingularityShell

namespace Manager

variable {κ : Type*} {m : Manager κ}

/-! ### The tracker only -/

theorem ensureAll_eq (m : Manager κ) (connectors : List String) :
    ∃ t, connectors.foldl ensureModel m = { m with toTracker := t } := by
  induction connectors generalizing m with
  | nil => exact ⟨m.toTracker, rfl⟩
  | cons c connectors ih =>
    obtain ⟨t, ht⟩ := ensureModel_eq m c
    obtain ⟨t', ht'⟩ := ih (m.ensureModel c)
    exact ⟨t', ht'.trans (by rw [ht])⟩

theorem enableStart_eq (m : Manager κ) (d : Desk κ) (saved : Saved) : ∃ t,
    m.enableStart d saved = { m.resetState with toTracker := t, saved := saved } := by
  obtain ⟨t, ht⟩ := ensureAll_eq { m.resetState with enabled := true, saved := saved } d.connectors
  unfold enableStart
  dsimp only
  rw [ht]
  split_ifs
  · obtain ⟨t', ht'⟩ := ensureModel_eq
      ({ m.resetState with toTracker := t, saved := saved } : Manager κ) ""
    exact ⟨t', ht'⟩
  · exact ⟨t, rfl⟩

variable [DecidableEq κ]

theorem restoreAll_eq (d : Desk κ) (keys : List κ) (m : Manager κ) :
    ∃ t, keys.foldl (fun m key => m.restoreOne d key) m = { m with toTracker := t } := by
  induction keys generalizing m with
  | nil => exact ⟨m.toTracker, rfl⟩
  | cons key keys ih =>
    obtain ⟨t, ht⟩ := ih (m.restoreOne d key)
    refine ⟨t, ht.trans ?_⟩
    unfold restoreOne
    split <;> rfl

theorem retireAll_eq (target : String) (gone : List String) (m : Manager κ) :
    ∃ t, retireAll target gone m = { m with toTracker := t } := by
  induction gone generalizing m with
  | nil => exact ⟨m.toTracker, rfl⟩
  | cons c gone ih =>
    obtain ⟨t, ht⟩ := ih (m.retire target c)
    exact ⟨t, ht⟩

theorem rest_relocate (m : Manager κ) (d : Desk κ) (key : κ) (source target : String) :
    (m.relocate d key source target).toTags = m.toTags ∧
      (m.relocate d key source target).toSession = m.toSession := by
  have hshow : ∀ n : Manager κ, (n.setHidden d false key).toTags = n.toTags ∧
      (n.setHidden d false key).toSession = n.toSession := by
    intro n
    obtain ⟨e, he⟩ := setHidden_eq n d false key
    rw [he]
    exact ⟨rfl, rfl⟩
  obtain ⟨t, ht⟩ := ensureModel_eq (m.call source (.removeWindow key)) target
  unfold relocate
  dsimp only
  rw [ht]
  split_ifs <;> first | exact hshow _ | exact ⟨rfl, rfl⟩

theorem toTags_applyPlan (m : Manager κ) (d : Desk κ) (hide show_ : List κ) :
    (m.applyPlan d hide show_).toTags = m.toTags := by
  obtain ⟨e, he⟩ := applyPlan_eq m d hide show_
  rw [he]

@[simp] theorem toSession_applyPlan (m : Manager κ) (d : Desk κ) (hide show_ : List κ) :
    (m.applyPlan d hide show_).toSession = m.toSession := by
  obtain ⟨e, he⟩ := applyPlan_eq m d hide show_
  rw [he]

@[simp] theorem toSession_syncTags (m : Manager κ) : m.syncTags.toSession = m.toSession := by
  obtain ⟨t, ht⟩ := syncTags_eq m
  rw [ht]

/-- `enable`, but for the last step. -/
theorem enable_eq (m : Manager κ) (d : Desk κ) (saved : Saved) : ∃ t e,
    m.enable d saved = syncTags
      { m.resetState with toTracker := t, saved := saved, expected := e } := by
  obtain ⟨t, ht⟩ := enableStart_eq m d saved
  obtain ⟨t', ht'⟩ := restoreAll_eq d d.mru (m.enableStart d saved)
  obtain ⟨n, hn⟩ : ∃ n, n = d.mru.foldl (fun m key => m.restoreOne d key) (m.enableStart d saved) :=
    ⟨_, rfl⟩
  obtain ⟨w, j, hj⟩ := finishLoop_eq d n.monitorOrder n
  obtain ⟨e, he⟩ := applyPlan_eq (finishLoop d n.monitorOrder n).1 d
    (finishLoop d n.monitorOrder n).2.1 (finishLoop d n.monitorOrder n).2.2
  refine ⟨{ n.toTracker with world := w, journal := j }, e, ?_⟩
  unfold enable
  dsimp only
  rw [← hn, he, hj, hn, ht', ht]

/-! ### Windows that keep their set -/

theorem model_call_self (m : Manager κ) (c : String) (x : Call κ) :
    (m.call c x).model c = ((m.model c).call x).1 := World.stage_put_self _

theorem model_call_of_ne (m : Manager κ) {c e : String} (hec : e ≠ c) (x : Call κ) :
    (m.call c x).model e = ⟨((m.model c).call x).1.toHeap, m.world.models e⟩ :=
  World.stage_put_of_ne _ hec

/-- A window that a call leaves in its set has a set with the same id. -/
theorem ownerId_call_of_owner (h : m.world.Sound) {c e : String} {x : Call κ} {k : κ}
    (hk : ((m.call c x).model e).owner k = (m.model e).owner k) :
    (m.call c x).ownerId e k = m.ownerId e k := by
  unfold ownerId
  rw [hk]
  refine Option.map_congr fun r hr => ?_
  have hmem := (((h.owned e).owner_iff k r).mp hr).1
  exact (Stage.extends_call (h.owned c) x).id r ((h.owned e).fresh r hmem)

theorem ownerId_call (h : m.world.Sound) {c : String} {x : Call κ} {k : κ}
    (hk : ((m.model c).call x).1.owner k = (m.model c).owner k) (e : String) :
    (m.call c x).ownerId e k = m.ownerId e k := by
  refine ownerId_call_of_owner h ?_
  by_cases hec : e = c
  · rw [hec, model_call_self]
    exact hk
  · rw [model_call_of_ne m hec]
    rfl

/-! ### The session -/

theorem toSession_enable (m : Manager κ) (d : Desk κ) (saved : Saved) :
    (m.enable d saved).toSession = m.toSession := by
  obtain ⟨t, e, he⟩ := enable_eq m d saved
  rw [he, toSession_syncTags]
  rfl

theorem toSession_onWindowOutputChanged (m : Manager κ) (d : Desk κ) (key : κ) :
    (m.onWindowOutputChanged d key).toSession = m.toSession := by
  unfold onWindowOutputChanged
  split
  · rfl
  · split
    · rw [toSession_syncTags, (rest_relocate m d key _ _).2]
    · rfl

theorem toSession_activate (hq : m.switching = false) (id : UInt32) (d : Desk κ) :
    (m.activate d id).toSession = m.toSession := by
  unfold activate
  split
  · rfl
  · split
    · rfl
    · rw [toSession_syncTags]
      dsimp only
      rw [toSession_applyPlan]
      exact congrArg (Session.mk m.pendingActivate) hq.symm

theorem toSession_syncMonitors (m : Manager κ) (d : Desk κ) :
    (m.syncMonitors d).toSession = m.toSession := by
  unfold syncMonitors
  split
  · rfl
  · next target rest hcon =>
    obtain ⟨t, ht⟩ := ensureAll_eq m d.connectors
    obtain ⟨t', ht'⟩ := retireAll_eq target (m.gone d) (m.regroupStart d)
    refine List.foldlRecOn _ _ (motive := fun n : Manager κ => n.toSession = m.toSession) ?_
      fun n h key _ => (toSession_onWindowOutputChanged n d key).trans h
    rw [regroup_eq, ht', regroupStart, ht]

end Manager

/-- The handlers that deal with activations that are put off. -/
def Handler.Surfacing {κ : Type*} : Handler κ → Prop
  | .windowStateChanged _ _ => True
  | .windowFocused _ _ => True
  | .idle _ => True
  | _ => False

namespace Manager

variable {κ : Type*} [DecidableEq κ] {m : Manager κ}

/-- The other handlers leave the session as it is. -/
theorem toSession_step (hq : m.switching = false) {e : Handler κ} (he : ¬e.Surfacing) :
    (m.step e).toSession = m.toSession := by
  cases e with
  | applySetting want saved d =>
    change (m.applySetting d want saved).toSession = m.toSession
    unfold applySetting
    split_ifs
    · rfl
    · exact toSession_enable m d saved
    · exact List.foldlRecOn m.names disableOne
        (motive := fun n : Manager κ => n.toSession = m.toSession) rfl fun _ h _ _ => h
  | windowOpened key d =>
    obtain ⟨t, he⟩ := ensureModel_eq m (m.connectorFor d key)
    change (m.onWindowOpened d key).toSession = m.toSession
    unfold onWindowOpened
    dsimp only
    rw [he]
    split_ifs
    · rw [toSession_syncTags, toSession_applyPlan]
      rfl
    · rw [toSession_syncTags]
      rfl
    · rfl
  | windowClosed key =>
    change (m.onWindowClosed key).toSession = m.toSession
    unfold onWindowClosed
    split
    · rfl
    · split <;> rfl
  | windowOutputChanged key d => exact toSession_onWindowOutputChanged m d key
  | windowStateChanged key d => exact absurd trivial he
  | windowFocused key d => exact absurd trivial he
  | idle d => exact absurd trivial he
  | activate id d => exact toSession_activate hq id d
  | moveWindow key targetId connector d =>
    change (m.moveWindow d key targetId connector).toSession = m.toSession
    unfold moveWindow
    split
    · rfl
    · split_ifs
      · rfl
      · rfl
      · rw [toSession_syncTags, toSession_applyPlan]
        rfl
  | syncMonitors d => exact toSession_syncMonitors m d
  | saveState =>
    change m.saveState.toSession = m.toSession
    unfold saveState
    split_ifs <;> rfl
  | rehash names windows =>
    change (if _ then _ else m).toSession = m.toSession
    split_ifs <;> rfl

/-- `_switching` is reset before a handler returns. -/
theorem switching_step (hq : m.switching = false) (e : Handler κ) :
    (m.step e).switching = false := by
  by_cases he : e.Surfacing
  · cases e with
    | windowStateChanged key d =>
      change (m.onWindowStateChanged d key).switching = false
      unfold onWindowStateChanged
      repeat' split
      all_goals exact hq
    | windowFocused key d =>
      obtain ⟨p, hp⟩ := onWindowFocused_eq m d key
      change (m.onWindowFocused d key).switching = false
      rw [hp]
      exact hq
    | idle d =>
      change (m.idle d).switching = false
      unfold idle
      split
      · exact hq
      · rw [toSession_activate (m := { m with pendingActivate := none }) hq]
        exact hq
    | applySetting | windowOpened | windowClosed | windowOutputChanged | activate | moveWindow
    | syncMonitors | saveState | rehash => exact he.elim
  · rw [toSession_step hq he]
    exact hq

end Manager

end SingularityShell
