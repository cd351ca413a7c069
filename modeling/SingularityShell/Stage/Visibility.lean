import SingularityShell.Stage.World

/-!
# Plans against visibility

A compositor keeps one flag for a window, minimised or not. It hides the windows of each
`plan.hide`, shows the windows of each `plan.show`, and minimises and restores what the user asks
for; it knows nothing of sets. This file follows one compositor for each model through every run of
the process and shows that what it has on screen is the active set, less what the user minimised.

## Main definitions

* `PlanExact` — a plan lists the keys that entered and left `_hidden`, each once
* `Scene` — the process with its compositors
* `Scene.Visible` — what must hold after an operation

## Main results

* `Scene.run_visible` — every operation of every run leaves its model visible, and its plan exact
-/

namespace SingularityShell

variable {ι κ : Type*}

/-! ### Plans -/

/-- The plan lists, without repetition, the keys that entered the set and those that left it. -/
structure PlanExact (before after : Finset κ) (plan : StagePlan κ) : Prop where
  hide_nodup : plan.hide.Nodup
  mem_hide : ∀ k, k ∈ plan.hide ↔ k ∈ after ∧ k ∉ before
  show_nodup : plan.show_.Nodup
  mem_show : ∀ k, k ∈ plan.show_ ↔ k ∈ before ∧ k ∉ after

theorem planExact_empty (hidden : Finset κ) : PlanExact hidden hidden {} := by
  constructor <;> simp

namespace Stage

variable [DecidableEq κ] {s : Stage κ} {k : κ}

/-- Keys of one list are hidden, keys of another are shown. -/
theorem planExact_hide_show (userMinimized hidden : Finset κ) (away back : List κ)
    (hdisj : ∀ k ∈ away, k ∉ back) : PlanExact hidden
      (showLoop (hideLoop userMinimized hidden away).1 back).1
      ⟨(hideLoop userMinimized hidden away).2,
        (showLoop (hideLoop userMinimized hidden away).1 back).2⟩ := by
  obtain ⟨hn, hm⟩ := hideLoop_plan away userMinimized hidden
  obtain ⟨hn', hm'⟩ := showLoop_plan back (hideLoop userMinimized hidden away).1
  refine ⟨hn, fun k => ?_, hn', fun k => ?_⟩
  · have := hdisj k
    rw [hm, mem_showLoop, mem_hideLoop]
    tauto
  · have := hdisj k
    rw [hm', mem_showLoop, mem_hideLoop]
    tauto

/-- Keys of one list are shown, then keys of another are hidden. -/
theorem planExact_show_hide (userMinimized hidden : Finset κ) (away back : List κ)
    (hdisj : ∀ k ∈ away, k ∉ back) : PlanExact hidden
      (hideLoop userMinimized (showLoop hidden back).1 away).1
      ⟨(hideLoop userMinimized (showLoop hidden back).1 away).2, (showLoop hidden back).2⟩ := by
  obtain ⟨hn, hm⟩ := hideLoop_plan away userMinimized (showLoop hidden back).1
  obtain ⟨hn', hm'⟩ := showLoop_plan back hidden
  refine ⟨hn, fun k => ?_, hn', fun k => ?_⟩
  · have := hdisj k
    rw [hm, mem_hideLoop, mem_showLoop]
    tauto
  · have := hdisj k
    rw [hm', mem_hideLoop, mem_showLoop]
    tauto

theorem chooseActive_hidden (h : s.Owned) (activeId : UInt32) (order : Option (List UInt32)) :
    ((s.chooseActive activeId).1.reorder order).hidden = s.hidden := by
  have hg : ((s.chooseActive activeId).1.reorder order).grouping =
      s.grouping.gather (s.chooseActive activeId).2 := by
    rw [grouping_reorder, h.grouping_chooseActive]
  exact Finset.coe_injective (congrArg Grouping.hidden hg)

theorem Owned.planExact_restoreFinish (h : s.Owned) (activeId : UInt32)
    (order : Option (List UInt32)) : PlanExact s.hidden (s.restoreFinish activeId order).1.hidden
      (s.restoreFinish activeId order).2 := by
  have ht := (h.chooseActive activeId).reorder order
  have hact : ((s.chooseActive activeId).1.reorder order).active =
      some (s.chooseActive activeId).2 := by
    obtain ⟨l, hl, -⟩ := reorder_eq (s.chooseActive activeId).1 order
    rw [hl]
    exact chooseActive_active s activeId
  have hne := (List.nodup_append.mp ht.nodup).2.2
  rw [hact] at hne
  rw [← chooseActive_hidden h activeId order]
  refine planExact_show_hide _ _ _ _ fun k hk => ?_
  obtain ⟨r, hr, hkr⟩ := List.mem_flatMap.mp hk
  refine ht.not_mem_of_ne (mem_refs.mpr (Or.inr hr)) (mem_refs.mpr (Or.inl hact)) ?_ hkr
  exact (hne _ (by simp) r hr).symm

/-- What `putAway` hides: the windows of the active set. -/
theorem putAway_plan (s : Stage κ) (l : List ℕ) :
    ∃ away, (∀ k ∈ away, ∃ a, s.active = some a ∧ k ∈ (s.sets a).windows) ∧
      (putAway { s with inactive := l }).1.hidden = (hideLoop s.userMinimized s.hidden away).1 ∧
      (putAway { s with inactive := l }).2 = (hideLoop s.userMinimized s.hidden away).2 := by
  unfold putAway
  split
  · exact ⟨[], by simp, rfl, rfl⟩
  · next a ha =>
    refine ⟨(s.sets a).windows, fun k hk => ⟨a, ha, hk⟩, ?_, rfl⟩
    split <;> rfl

theorem Owned.planExact_activate (h : s.Owned) (id : UInt32) :
    PlanExact s.hidden (s.activate id).1.hidden (s.activate id).2 := by
  rcases activate_cases s id with he | ⟨target, hin, -, hne, he, -⟩
  · rw [he]
    exact planExact_empty _
  · obtain ⟨away, haway, h1, h2⟩ := putAway_plan s (s.inactive.erase target)
    rw [he]
    have := planExact_hide_show s.userMinimized s.hidden away (s.sets target).windows
      fun k hk => by
        obtain ⟨a, ha, hka⟩ := haway k hk
        refine h.not_mem_of_ne (mem_refs.mpr (Or.inl ha)) (mem_refs.mpr (Or.inr hin)) ?_ hka
        exact fun hc => hne (hc ▸ ha)
    rw [← h1, ← h2] at this
    exact this

theorem planExact_moveFlags (s : Stage κ) (k : κ) (source target : ℕ) :
    PlanExact s.hidden (s.moveFlags k source target).1.hidden (s.moveFlags k source target).2 := by
  unfold moveFlags
  split
  · exact planExact_show_hide s.userMinimized s.hidden [] [k] (by simp)
  · split
    · exact planExact_hide_show s.userMinimized s.hidden [k] [] (by simp)
    · exact planExact_empty _

theorem planExact_moveWindow (s : Stage κ) (k : κ) (targetId : UInt32) :
    PlanExact s.hidden (s.moveWindow k targetId).1.hidden (s.moveWindow k targetId).2 := by
  unfold moveWindow
  split
  · exact planExact_empty _
  · next source hk =>
    split
    · exact planExact_empty _
    · have hhidden : (((s.moveTarget targetId).1.dropWindow source k).pushWindow
          (s.moveTarget targetId).2 k).hidden = s.hidden :=
        Finset.coe_injective (congrArg Grouping.hidden (grouping_moveTarget s targetId))
      have hdrop : ∀ t : Stage κ, (t.dropIfEmpty source).hidden = t.hidden := fun t =>
        Finset.coe_injective (congrArg Grouping.hidden (grouping_dropIfEmpty t source))
      have := planExact_moveFlags (((s.moveTarget targetId).1.dropWindow source k).pushWindow
        (s.moveTarget targetId).2 k) k source (s.moveTarget targetId).2
      rw [hhidden] at this
      simpa only [hdrop] using this

/-! ### Settled models -/

/-- The active set is shown, and everything else is put away. -/
def Settled (s : Stage κ) : Prop := s.grouping.Settled

theorem Settled.addWindow (ho : s.Owned) (h : s.Settled) (k : κ) : (s.addWindow k).Settled := by
  by_cases hk : s.owner k = none
  · unfold Settled
    rw [grouping_addWindow hk]
    exact Grouping.Settled.join h hk ho.ensureActive_group
  · rwa [Stage.addWindow, if_pos (Option.isSome_iff_ne_none.mpr hk)]

theorem Settled.removeWindow (h : s.Settled) (k : κ) : (s.removeWindow k).Settled := by
  cases hk : s.owner k with
  | none => simpa only [Stage.removeWindow, hk] using h
  | some r =>
    unfold Settled
    rw [grouping_removeWindow hk]
    exact Grouping.Settled.forget h

theorem Settled.setUserMinimized (h : s.Settled) (hk : k ∈ s.grouping.activeMembers) (b : Bool) :
    (s.setUserMinimized k b).Settled := by
  unfold Settled
  rw [grouping_setUserMinimized hk.1]
  exact Grouping.Settled.minimize h hk

theorem Settled.activate (ho : s.Owned) (h : s.Settled) (id : UInt32) :
    (s.activate id).1.Settled := by
  rcases ho.grouping_activate id with he | ⟨target, -, -, he⟩
  · rwa [he]
  · unfold Settled
    rw [he]
    exact Grouping.Settled.switchTo h

theorem Settled.moveWindow (h : s.Settled) (k : κ) (targetId : UInt32) :
    (s.moveWindow k targetId).1.Settled := by
  rcases grouping_moveWindow s k targetId with he | ⟨hk, he⟩
  · rwa [he]
  · unfold Settled
    rw [he]
    exact Grouping.Settled.move h hk

theorem coherent_restoreWindow (h : s.grouping.Coherent) (k : κ) (setId : UInt32)
    (minimized hidden : Bool) : (s.restoreWindow k setId minimized hidden).grouping.Coherent := by
  by_cases hk : s.owner k = none
  · obtain ⟨g, a, he⟩ := grouping_restoreWindow hk setId minimized hidden
    have hp : (s.grouping.place k g minimized hidden).Coherent := h.place hk
    rw [he]
    exact ⟨⟨hp.hidden_grouped, hp.minimized_grouped⟩, hp.disjoint⟩
  · rwa [restoreWindow, if_pos (Option.isSome_iff_ne_none.mpr hk)]

theorem settled_restoreFinish (ho : s.Owned) (h : s.grouping.Coherent) (activeId : UInt32)
    (order : Option (List UInt32)) : (s.restoreFinish activeId order).1.Settled := by
  unfold Settled
  rw [ho.grouping_restoreFinish]
  exact h.gather.settle

theorem Apart.settled_adopt {other : StageModel κ} (ho : s.Owned) (ha : s.Apart other)
    (h : s.Settled) (h' : Settled ⟨s.toHeap, other⟩) : (s.adopt other).1.Settled := by
  obtain ⟨h1, -⟩ := ha.adopt ho
  unfold Settled
  rw [ha.grouping_adopt ho h'.toMarked]
  have howned : ∀ r, s.active = some r → ∀ k, other.owner k ≠ some r := fun r hr k hk =>
    ha.refs r (mem_refs.mpr (Or.inl hr)) ((ha.owned.owner_iff k r).mp hk).1
  have hnew : ∀ k, other.owner k ≠ some s.nextRef := fun k =>
    ha.owned.not_mem_refs_owner ha.owned.nextRef_not_mem
  refine Grouping.Settled.absorb h h' ha.keys ?_ (fun k => ?_) fun k hk =>
    h1.active_some k hk.1 hk.2
  · rcases h1.active with hact | ⟨hact, hnone⟩
    · exact Or.inl hact.symm
    · refine Or.inr ⟨hnone, fun k => Or.inr ?_⟩
      rw [hact]
      exact ho.not_mem_refs_owner ho.nextRef_not_mem
  · change other.owner k = none ∨ other.owner k ≠ (s.adoptActive other).active
    rcases h1.active with hact | ⟨hact, -⟩
    · rw [hact]
      cases ha' : s.active with
      | none => exact em _
      | some r => exact Or.inr (howned r ha' k)
    · rw [hact]
      exact Or.inr (hnew k)

end Stage

/-! ### The process with its compositors -/

/-- The process, with what the compositors have minimised and which models are being restored. -/
structure Scene (ι κ : Type*) extends World ι κ where
  /-- The windows of a model that its compositor has minimised. -/
  minimized : ι → Finset κ
  /-- A model is being restored between the first `restore_window` and `restore_finish`. -/
  restoring : ι → Bool

/-- What the compositor does at a call: it carries the plan out, and the call itself tells of a
window that came, went, or was minimised by the user. -/
def compositor [DecidableEq κ] (s : Stage κ) (minimized : Finset κ) : Call κ → Finset κ
  | .restoreWindow key _ min _ =>
    if s.owner key = none ∧ min then insert key minimized else minimized
  | .removeWindow key => minimized.erase key
  | .setUserMinimized key min =>
    if s.owner key = none then minimized
    else if min then insert key minimized else minimized.erase key
  | c => (minimized ∪ (s.call c).2.hide.toFinset) \ (s.call c).2.show_.toFinset

namespace Stage

variable [DecidableEq κ] {s : Stage κ}

/-- A plan that accounts for `_hidden` keeps the compositor in step. -/
theorem compositor_plan {before after userMinimized : Finset κ} {plan : StagePlan κ}
    (hp : PlanExact before after plan) (hdisj : ∀ k ∈ before, k ∉ userMinimized) :
    ((before ∪ userMinimized) ∪ plan.hide.toFinset) \ plan.show_.toFinset =
      after ∪ userMinimized := by
  ext k
  have := hdisj k
  simp only [Finset.mem_sdiff, Finset.mem_union, List.mem_toFinset, hp.mem_hide, hp.mem_show]
  tauto

/-- A call that keeps the minimised windows and accounts for `_hidden` in its plan. -/
theorem compositor_of_planExact {s' : Stage κ} {plan : StagePlan κ} (h : s.grouping.Coherent)
    (hp : PlanExact s.hidden s'.hidden plan) (hum : s'.grouping.minimized = s.grouping.minimized) :
    ((s.hidden ∪ s.userMinimized) ∪ plan.hide.toFinset) \ plan.show_.toFinset =
      s'.hidden ∪ s'.userMinimized := by
  have hum' : s'.userMinimized = s.userMinimized := Finset.coe_injective hum
  rw [hum']
  exact compositor_plan hp h.disjoint

theorem hidden_addWindow (s : Stage κ) (k : κ) : (s.addWindow k).hidden = s.hidden ∧
    (s.addWindow k).grouping.minimized = s.grouping.minimized := by
  by_cases hk : s.owner k = none
  · have hg := grouping_addWindow hk
    exact ⟨Finset.coe_injective (congrArg Grouping.hidden hg), (congrArg Grouping.minimized hg :)⟩
  · rw [addWindow, if_pos (Option.isSome_iff_ne_none.mpr hk)]
    exact ⟨rfl, rfl⟩

theorem hidden_removeWindow (h : s.grouping.Marked) (k : κ) :
    (s.removeWindow k).hidden = s.hidden.erase k ∧
      (s.removeWindow k).userMinimized = s.userMinimized.erase k := by
  cases hk : s.owner k with
  | none =>
    have hkey := Grouping.marked_iff.mp h k
    have h1 : k ∉ s.hidden := fun hc => hkey.1 hc hk
    have h2 : k ∉ s.userMinimized := fun hc => hkey.2 hc hk
    simp [removeWindow, hk, h1, h2]
  | some r =>
    have hg := grouping_removeWindow hk
    exact ⟨Finset.coe_injective ((congrArg Grouping.hidden hg).trans (by simp [Grouping.forget,
      grouping])), Finset.coe_injective ((congrArg Grouping.minimized hg).trans (by
      simp [Grouping.forget, grouping]))⟩

theorem hidden_restoreWindow (s : Stage κ) (k : κ) (setId : UInt32) (minimized hidden : Bool) :
    (s.restoreWindow k setId minimized hidden).hidden =
      (if s.owner k = none ∧ minimized ∧ hidden then insert k s.hidden else s.hidden) ∧
    (s.restoreWindow k setId minimized hidden).userMinimized =
      if s.owner k = none ∧ minimized ∧ hidden = false then insert k s.userMinimized
      else s.userMinimized := by
  by_cases hk : s.owner k = none
  · obtain ⟨g, a, he⟩ := grouping_restoreWindow hk setId minimized hidden
    refine ⟨Finset.coe_injective ((congrArg Grouping.hidden he).trans ?_),
      Finset.coe_injective ((congrArg Grouping.minimized he).trans ?_)⟩ <;>
    cases minimized <;> cases hidden <;> simp [hk, Grouping.place, grouping]
  · rw [restoreWindow, if_pos (Option.isSome_iff_ne_none.mpr hk)]
    simp [hk]

theorem hidden_setUserMinimized (s : Stage κ) (k : κ) (b : Bool) :
    (s.setUserMinimized k b).hidden = s.hidden := by
  unfold setUserMinimized
  split
  · rfl
  · split <;> rfl

/-- **The compositor stays in step.** When it has minimised what the model says is hidden or
minimised, so it has after a call. A window the user minimises or brings back must not be hidden
by the stage at the time. -/
theorem Owned.compositor_eq (ho : s.Owned) (h : s.grouping.Coherent) (c : Call κ)
    (hset : ∀ key b, c = .setUserMinimized key b → key ∉ s.hidden)
    (hmark : ∀ key, c ≠ .markShown key) (hclear : c ≠ .clear) :
    compositor s (s.hidden ∪ s.userMinimized) c =
      (s.call c).1.hidden ∪ (s.call c).1.userMinimized := by
  cases c with
  | restoreWindow key setId min hid =>
    obtain ⟨h1, h2⟩ := hidden_restoreWindow s key setId min hid
    simp only [compositor, Stage.call, h1, h2]
    by_cases hk : s.owner key = none <;> cases min <;> cases hid <;>
      simp [hk, Finset.insert_union, Finset.union_insert]
  | restoreFinish activeId order =>
    exact compositor_of_planExact h (ho.planExact_restoreFinish activeId order)
      (congrArg Grouping.minimized (ho.grouping_restoreFinish activeId order) :)
  | addWindow key =>
    obtain ⟨h1, h2⟩ := hidden_addWindow s key
    exact compositor_of_planExact h (h1 ▸ planExact_empty _) h2
  | removeWindow key =>
    obtain ⟨h1, h2⟩ := hidden_removeWindow h.toMarked key
    simp only [compositor, Stage.call, h1, h2, Finset.erase_union_distrib]
  | setUserMinimized key min =>
    have hkey := hset key min rfl
    simp only [compositor, Stage.call, Stage.setUserMinimized]
    by_cases hk : s.owner key = none
    · simp [hk]
    · cases min
      · simp [hk, Finset.erase_union_distrib, Finset.erase_eq_of_notMem hkey]
      · simp [hk, Finset.union_insert]
  | activate id =>
    refine compositor_of_planExact h (ho.planExact_activate id) ?_
    rcases ho.grouping_activate id with he | ⟨target, -, -, he⟩
    · exact congrArg (fun t : Stage κ => t.grouping.minimized) he
    · exact (congrArg Grouping.minimized he :)
  | moveWindow key targetId =>
    refine compositor_of_planExact h (planExact_moveWindow s key targetId) ?_
    rcases grouping_moveWindow s key targetId with he | ⟨-, he⟩
    · exact congrArg (fun r : Stage κ × StagePlan κ => r.1.grouping.minimized) he
    · exact (congrArg Grouping.minimized he :)
  | markShown key => exact absurd rfl (hmark key)
  | clear => exact absurd rfl hclear

end Stage

namespace Scene

/-- New models, and nothing minimised. -/
def start (h : Heap κ) : Scene ι κ := ⟨World.start h, fun _ => ∅, fun _ => false⟩

variable [DecidableEq κ]

/-- Whether the model is being restored after a call. -/
def phase (restoring : Bool) : Call κ → Bool
  | .restoreWindow .. => true
  | .restoreFinish .. => false
  | _ => restoring

/-- The calls of these runs. Outside a restore phase every call but `restore_window`, `mark_shown`
and `clear` may come; a restore phase is closed by its `restore_finish` before anything else. -/
def Fair (sc : Scene ι κ) : Event ι κ → Prop
  | .on _ (.restoreWindow ..) => True
  | .on _ (.restoreFinish ..) => True
  | .on i (.addWindow _) => sc.restoring i = false
  | .on i (.removeWindow _) => sc.restoring i = false
  | .on i (.activate _) => sc.restoring i = false
  | .on i (.moveWindow ..) => sc.restoring i = false
  | .on i (.setUserMinimized key _) =>
    sc.restoring i = false ∧ key ∈ (sc.stage i).grouping.activeMembers
  | .on _ (.markShown _) => False
  | .on _ .clear => False
  | .adopt i j => sc.restoring i = false ∧ sc.restoring j = false ∧ sc.Separate i j

/-- The windows of a model that are on screen. -/
def shown (sc : Scene ι κ) (i : ι) : Set κ :=
  {k | (sc.models i).owner k ≠ none ∧ k ∉ sc.minimized i}

/-- What holds of a model after every operation. -/
structure Visible (sc : Scene ι κ) (i : ι) : Prop where
  /-- No key of the active set is hidden. -/
  active_shown : ∀ a, (sc.stage i).active = some a → ∀ k ∈ ((sc.stage i).sets a).windows,
    k ∉ (sc.stage i).hidden
  /-- Every key of an inactive set is hidden, by the stage or by the user. -/
  inactive_away : ∀ r ∈ (sc.stage i).inactive, ∀ k ∈ ((sc.stage i).sets r).windows,
    k ∈ (sc.stage i).hidden ∨ k ∈ (sc.stage i).userMinimized
  /-- Not by both. -/
  disjoint : Disjoint (sc.stage i).hidden (sc.stage i).userMinimized
  /-- The compositor shows the windows of the active set the user has not minimised. -/
  shown_eq : sc.shown i = {k | (∃ a, (sc.stage i).active = some a ∧
    k ∈ ((sc.stage i).sets a).windows) ∧ k ∉ (sc.stage i).userMinimized}

/-! ### The invariant -/

/-- The models are sound, settled outside a restore phase, and each compositor has minimised what
its model says is hidden or minimised. -/
structure Good (sc : Scene ι κ) : Prop where
  sound : sc.Sound
  coherent : ∀ i, (sc.stage i).grouping.Coherent
  settled : ∀ i, sc.restoring i = false → (sc.stage i).Settled
  minimized : ∀ i, sc.minimized i = (sc.stage i).hidden ∪ (sc.stage i).userMinimized

theorem good_start (h : Heap κ) : (start h : Scene ι κ).Good := by
  have hs : (⟨h, .fresh⟩ : Stage κ).Settled := by
    have : (⟨h, .fresh⟩ : Stage κ).grouping = .empty :=
      Stage.grouping_eq rfl rfl (by simp [StageModel.fresh, Grouping.empty])
        (by simp [StageModel.fresh, Grouping.empty])
    rw [Stage.Settled, this]
    exact Grouping.settled_empty
  exact ⟨World.sound_start h, fun _ => hs.toCoherent, fun _ _ => hs, fun _ => by
    simp [start, World.start, World.stage, StageModel.fresh]⟩

/-! ### One call -/

variable {sc : Scene ι κ} {i j l : ι} {c : Call κ}

/-- After a call its model is coherent, and settled unless a restore phase is open. -/
theorem Good.call (h : sc.Good) (hf : sc.Fair (.on i c)) :
    ((sc.stage i).call c).1.grouping.Coherent ∧
      (phase (sc.restoring i) c = false → ((sc.stage i).call c).1.Settled) := by
  have ho := h.sound.owned i
  have hquiet : ((sc.stage i).call c).1.Settled → ((sc.stage i).call c).1.grouping.Coherent ∧
      (phase (sc.restoring i) c = false → ((sc.stage i).call c).1.Settled) := fun hs =>
    ⟨hs.toCoherent, fun _ => hs⟩
  cases c with
  | restoreWindow key setId min hid =>
    exact ⟨Stage.coherent_restoreWindow (h.coherent i) key setId min hid, nofun⟩
  | restoreFinish activeId order =>
    exact hquiet (Stage.settled_restoreFinish ho (h.coherent i) activeId order)
  | addWindow key => exact hquiet ((h.settled i hf).addWindow ho key)
  | removeWindow key => exact hquiet ((h.settled i hf).removeWindow key)
  | setUserMinimized key min => exact hquiet ((h.settled i hf.1).setUserMinimized hf.2 min)
  | activate id => exact hquiet ((h.settled i hf).activate ho id)
  | moveWindow key targetId => exact hquiet ((h.settled i hf).moveWindow key targetId)
  | markShown key => exact hf.elim
  | clear => exact hf.elim

/-- After a call its compositor is in step with it. -/
theorem Good.compositor_call (h : sc.Good) (hf : sc.Fair (.on i c)) :
    compositor (sc.stage i) (sc.minimized i) c =
      ((sc.stage i).call c).1.hidden ∪ ((sc.stage i).call c).1.userMinimized := by
  rw [h.minimized i]
  refine (h.sound.owned i).compositor_eq (h.coherent i) c ?_ ?_ ?_
  · rintro key b rfl
    exact (h.settled i hf.1).active_shown key hf.2
  · rintro key rfl
    exact hf
  · rintro rfl
    exact hf

/-- What `adopt` does to the flags, for models that are separate and settled. -/
theorem Good.marks_adopt (h : sc.Good) (hf : sc.Fair (.adopt i j)) :
    ((sc.stage i).adopt (sc.models j)).1.hidden = (sc.stage i).hidden ∪ (sc.stage j).hidden ∧
      ((sc.stage i).adopt (sc.models j)).1.userMinimized =
        (sc.stage i).userMinimized ∪ (sc.stage j).userMinimized := by
  have hap := h.sound.stageApart hf.2.2
  have hj := h.settled j hf.2.1
  have hg := hap.grouping_adopt (h.sound.owned i) hj.toMarked
  refine ⟨Finset.coe_injective ((congrArg Grouping.hidden hg).trans ?_),
    Finset.coe_injective ((congrArg Grouping.minimized hg).trans ?_)⟩
  · have hshown : ((sc.stage j).hidden : Set κ) \ (sc.stage j).grouping.activeMembers =
        (sc.stage j).hidden :=
      sdiff_eq_left.mpr (Set.disjoint_right.mpr fun k hk => hj.active_shown k hk)
    rw [Finset.coe_union, ← hshown]
    rfl
  · rw [Finset.coe_union]
    rfl

/-- A settled model with its compositor in step is visible. -/
theorem Good.visible (h : sc.Good) (hi : sc.restoring i = false) : sc.Visible i where
  active_shown a ha k hk :=
    (h.settled i hi).active_shown k (((h.sound.owned i).mem_windows_active ha).mp hk)
  inactive_away r hr k hk := by
    obtain ⟨h1, h2⟩ := (h.sound.owned i).mem_windows_inactive.mp ⟨r, hr, hk⟩
    exact (h.settled i hi).rest_away k h1 h2
  disjoint := Finset.disjoint_left.mpr (h.coherent i).disjoint
  shown_eq := by
    have hon := (h.settled i hi).onScreen_eq
    ext k
    have hk := Set.ext_iff.mp hon k
    have hact : (∃ a, (sc.stage i).active = some a ∧ k ∈ ((sc.stage i).sets a).windows) ↔
        k ∈ (sc.stage i).grouping.activeMembers := by
      constructor
      · rintro ⟨a, ha, hka⟩
        exact ((h.sound.owned i).mem_windows_active ha).mp hka
      · intro hc
        obtain ⟨a, ha⟩ := Option.ne_none_iff_exists'.mp (fun hn => hc.1 (hc.2.trans hn))
        exact ⟨a, ha, ((h.sound.owned i).mem_windows_active ha).mpr hc⟩
    change (sc.models i).owner k ≠ none ∧ k ∉ sc.minimized i ↔ _ ∧ _
    rw [hact, h.minimized, Finset.mem_union, not_or]
    exact hk

variable [DecidableEq ι]

/-- One call. -/
def step (sc : Scene ι κ) (e : Event ι κ) : Scene ι κ :=
  match e with
  | .on i c =>
    { sc.toWorld.step e with
      minimized := Function.update sc.minimized i
        (compositor (sc.stage i) (sc.minimized i) c)
      restoring := Function.update sc.restoring i (phase (sc.restoring i) c) }
  | .adopt i j =>
    { sc.toWorld.step e with
      minimized := Function.update (Function.update sc.minimized i
        (sc.minimized i ∪ sc.minimized j)) j ∅
      restoring := sc.restoring }

/-- What holds of `_hidden` across one event: the methods that return a plan account for every key
in it, the others leave `_hidden` alone but for a window that goes, and `adopt` joins the two
models. -/
def Accounted (sc : Scene ι κ) : Event ι κ → Prop
  | .on i (.removeWindow key) =>
    ((sc.step (.on i (.removeWindow key))).stage i).hidden = (sc.stage i).hidden.erase key
  | .on i (.restoreWindow key id min hid) =>
    ((sc.step (.on i (.restoreWindow key id min hid))).stage i).hidden =
      if (sc.stage i).owner key = none ∧ min ∧ hid then insert key (sc.stage i).hidden
      else (sc.stage i).hidden
  | .on i c => PlanExact (sc.stage i).hidden ((sc.step (.on i c)).stage i).hidden
      ((sc.stage i).call c).2
  | .adopt i j =>
    ((sc.step (.adopt i j)).stage i).hidden = (sc.stage i).hidden ∪ (sc.stage j).hidden

/-! ### Steps -/

theorem stage_on_self (sc : Scene ι κ) (i : ι) (c : Call κ) :
    (sc.step (.on i c)).stage i = ((sc.stage i).call c).1 :=
  World.stage_put_self _

theorem stage_on_of_ne (sc : Scene ι κ) (c : Call κ) (h : l ≠ i) :
    (sc.step (.on i c)).stage l = ⟨((sc.stage i).call c).1.toHeap, sc.models l⟩ :=
  World.stage_put_of_ne _ h

theorem Good.on (h : sc.Good) (hf : sc.Fair (.on i c)) : (sc.step (.on i c)).Good := by
  obtain ⟨hcoh, hset⟩ := h.call hf
  have hrest : (sc.step (.on i c)).restoring =
      Function.update sc.restoring i (phase (sc.restoring i) c) := rfl
  have hmin : (sc.step (.on i c)).minimized =
      Function.update sc.minimized i (compositor (sc.stage i) (sc.minimized i) c) := rfl
  refine ⟨World.sound_step sc.toWorld (.on i c) h.sound trivial,
    fun l => ?_, fun l hl => ?_, fun l => ?_⟩
  · by_cases hli : l = i
    · subst hli; rwa [stage_on_self]
    · rw [stage_on_of_ne sc c hli]; exact h.coherent l
  · rw [hrest] at hl
    by_cases hli : l = i
    · subst hli
      rw [stage_on_self]
      exact hset (by simpa using hl)
    · rw [stage_on_of_ne sc c hli]
      exact h.settled l (by simpa [hli] using hl)
  · rw [hmin]
    by_cases hli : l = i
    · subst hli
      rw [stage_on_self, Function.update_self]
      exact h.compositor_call hf
    · rw [stage_on_of_ne sc c hli, Function.update_of_ne hli]
      exact h.minimized l

theorem Good.adopt (h : sc.Good) (hf : sc.Fair (.adopt i j)) : (sc.step (.adopt i j)).Good := by
  have hij := hf.2.2.1
  have hset := (h.sound.stageApart hf.2.2).settled_adopt (h.sound.owned i) (h.settled i hf.1)
    (h.settled j hf.2.1)
  have hnew := (good_start (ι := ι) ((sc.stage i).adopt (sc.models j)).1.toHeap).settled j rfl
  have hself : (sc.step (.adopt i j)).stage i = _ := World.stage_adopt_self hij
  have hother : (sc.step (.adopt i j)).stage j = _ := World.stage_adopt_other sc.toWorld i j
  have hrest : ∀ l, l ≠ i → l ≠ j → (sc.step (.adopt i j)).stage l = _ := fun l hi hj =>
    World.stage_adopt_of_ne hi hj
  have hsettled : ∀ l, l = i ∨ l = j → ((sc.step (.adopt i j)).stage l).Settled := by
    rintro l (rfl | rfl)
    · rwa [hself]
    · rwa [hother]
  refine ⟨World.sound_step sc.toWorld (.adopt i j) h.sound hf.2.2,
    fun l => ?_, fun l hl => ?_, fun l => ?_⟩
  · by_cases hl : l = i ∨ l = j
    · exact (hsettled l hl).toCoherent
    · rw [not_or] at hl
      rw [hrest l hl.1 hl.2]
      exact h.coherent l
  · by_cases hl' : l = i ∨ l = j
    · exact hsettled l hl'
    · rw [not_or] at hl'
      rw [hrest l hl'.1 hl'.2]
      exact h.settled l hl
  · change Function.update (Function.update sc.minimized i _) j ∅ l = _
    by_cases hlj : l = j
    · subst hlj
      rw [hother, Function.update_self]
      simp [StageModel.fresh]
    rw [Function.update_of_ne hlj]
    by_cases hli : l = i
    · subst hli
      obtain ⟨h1, h2⟩ := h.marks_adopt hf
      rw [Function.update_self, hself, h1, h2, h.minimized, h.minimized]
      exact Finset.union_union_union_comm _ _ _ _
    · rw [Function.update_of_ne hli, hrest l hli hlj]
      exact h.minimized l

theorem good_step (sc : Scene ι κ) (e : Event ι κ) (h : sc.Good) (hf : sc.Fair e) :
    (sc.step e).Good := by
  cases e with
  | on i c => exact h.on hf
  | adopt i j => exact h.adopt hf

theorem Good.accounted (h : sc.Good) {e : Event ι κ} (hf : sc.Fair e) : sc.Accounted e := by
  cases e with
  | adopt i j =>
    have hself : (sc.step (.adopt i j)).stage i = _ := World.stage_adopt_self hf.2.2.1
    change ((sc.step (.adopt i j)).stage i).hidden = _
    rw [hself]
    exact (h.marks_adopt hf).1
  | on i c =>
    have ho := h.sound.owned i
    cases c <;> simp only [Accounted, stage_on_self]
    case restoreWindow key setId min hid =>
      exact (Stage.hidden_restoreWindow (sc.stage i) key setId min hid).1
    case restoreFinish activeId order => exact ho.planExact_restoreFinish activeId order
    case addWindow key =>
      have hsame := (Stage.hidden_addWindow (sc.stage i) key).1
      exact hsame.symm ▸ planExact_empty (sc.stage i).hidden
    case removeWindow key => exact (Stage.hidden_removeWindow (h.coherent i).toMarked key).1
    case setUserMinimized key min =>
      have hsame := Stage.hidden_setUserMinimized (sc.stage i) key min
      exact hsame.symm ▸ planExact_empty (sc.stage i).hidden
    case activate id => exact ho.planExact_activate id
    case moveWindow key targetId => exact Stage.planExact_moveWindow (sc.stage i) key targetId
    case markShown key => exact hf.elim
    case clear => exact hf.elim

/-- **Plans against visibility.** After every operation of every run its `_hidden` has changed as
its plan says, and every model that is not in the middle of a restore phase has exactly the
windows of its active set on screen that the user has not minimised. -/
theorem run_visible (h : Heap κ) (es : List (Event ι κ)) (e : Event ι κ)
    (hg : Transition.Guarded step Fair (start h) (es ++ [e])) :
    (Transition.run step (start h) es).Accounted e ∧
      ∀ i, (Transition.run step (start h) (es ++ [e])).restoring i = false →
        (Transition.run step (start h) (es ++ [e])).Visible i := by
  have hsplit := (Transition.guarded_append _ _ _).mp hg
  have hbefore := hsplit.1.invariant good_step (good_start h)
  have hafter := hg.invariant good_step (good_start h)
  exact ⟨hbefore.accounted hsplit.2.1, fun i hi => hafter.visible hi⟩

/-- Two models: one is restored with a hidden window, a window moves to a new set, one is
minimised, the hidden set is activated, and the second model joins the first. -/
theorem run_visible_merge : Visible (Transition.run step (start .initial)
    [.on false (.restoreWindow 0 7 true true), .on false (.restoreWindow 1 8 false false),
      .on false (.restoreFinish 8 none), .on false (.addWindow 2),
      .on false (.setUserMinimized 1 true), .on false (.moveWindow 2 0),
      .on false (.activate 7), .on true (.addWindow 3), .adopt false true] :
        Scene Bool (Fin 4)) false := by
  refine (run_visible .initial
    [.on false (.restoreWindow 0 7 true true), .on false (.restoreWindow 1 8 false false),
      .on false (.restoreFinish 8 none), .on false (.addWindow 2),
      .on false (.setUserMinimized 1 true), .on false (.moveWindow 2 0),
      .on false (.activate 7), .on true (.addWindow 3)] (.adopt false true) ?_).2 false rfl
  refine And.intro trivial <| And.intro trivial <| And.intro trivial <| And.intro rfl <|
    And.intro ⟨rfl, ?_, ?_⟩ <| And.intro rfl <| And.intro rfl <| And.intro rfl <|
    And.intro ⟨rfl, rfl, ?_, ?_⟩ trivial <;> decide

end Scene

end SingularityShell
