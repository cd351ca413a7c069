import SingularityShell.Stage.Grouping
import SingularityShell.Stage.Methods
import Mathlib.Data.Finset.Basic

/-!
# The methods of `StageModel` compute the operations on groupings

`Stage.grouping` forgets lists, ids and the heap: what is left of a model is the group of each
key, the active group and the two marks. Under this map every method is an operation of
`Grouping`, or does nothing.

## Main results

* `Stage.grouping_addWindow`, `grouping_removeWindow`, `grouping_activate`, `grouping_moveWindow`,
  `grouping_setUserMinimized`, `grouping_markShown`, `grouping_restoreWindow`,
  `grouping_restoreFinish`, `Apart.grouping_adopt`
-/

namespace SingularityShell

namespace Stage

variable {κ : Type*} {s : Stage κ} {r : ℕ} {k : κ}

/-- What a model says about its keys. -/
def grouping (s : Stage κ) : Grouping ℕ κ := ⟨s.owner, s.active, ↑s.hidden, ↑s.userMinimized⟩

theorem grouping_eq {v : Grouping ℕ κ} (hgroup : s.owner = v.group) (hactive : s.active = v.active)
    (hhidden : ∀ k, k ∈ s.hidden ↔ k ∈ v.hidden)
    (hminimized : ∀ k, k ∈ s.userMinimized ↔ k ∈ v.minimized) : s.grouping = v :=
  Grouping.ext hgroup hactive (Set.ext fun k => by simp [grouping, hhidden])
    (Set.ext fun k => by simp [grouping, hminimized])

theorem mem_activeMembers_grouping :
    k ∈ s.grouping.activeMembers ↔ s.owner k ≠ none ∧ s.owner k = s.active := Iff.rfl

theorem mem_grouped_grouping : k ∈ s.grouping.grouped ↔ s.owner k ≠ none := Iff.rfl

/-- The windows of the active set are the active keys. -/
theorem Owned.mem_windows_active (h : s.Owned) {a : ℕ} (ha : s.active = some a) :
    k ∈ (s.sets a).windows ↔ k ∈ s.grouping.activeMembers := by
  have ho := h.owner_iff k a
  rw [mem_activeMembers_grouping, ha]
  constructor
  · intro hk
    have := ho.mpr ⟨mem_refs.mpr (Or.inl ha), hk⟩
    simp [this]
  · exact fun hk => (ho.mp hk.2).2

/-- The windows of the inactive sets are the other keys that are grouped. -/
theorem Owned.mem_windows_inactive (h : s.Owned) :
    (∃ r ∈ s.inactive, k ∈ (s.sets r).windows) ↔
      k ∈ s.grouping.grouped ∧ k ∉ s.grouping.activeMembers := by
  rw [mem_activeMembers_grouping, mem_grouped_grouping]
  constructor
  · rintro ⟨r, hr, hk⟩
    have ho := (h.owner_iff k r).mpr ⟨mem_refs.mpr (Or.inr hr), hk⟩
    refine ⟨by simp [ho], fun hc => ?_⟩
    have hne := (List.nodup_append.mp h.nodup).2.2 r (by simp [← hc.2, ho]) r hr
    exact hne rfl
  · rintro ⟨hk, hna⟩
    obtain ⟨r, hr⟩ := Option.ne_none_iff_exists'.mp hk
    obtain ⟨hmem, hkr⟩ := (h.owner_iff k r).mp hr
    refine ⟨r, (mem_refs.mp hmem).resolve_left fun hc => hna ⟨hk, ?_⟩, hkr⟩
    rw [hr, hc]

theorem Owned.not_mem_refs_owner (h : s.Owned) (hr : r ∉ s.refs) : s.owner k ≠ some r :=
  fun hc => hr ((h.owner_iff k r).mp hc).1

theorem grouping_dropIfEmpty (s : Stage κ) (r : ℕ) : (s.dropIfEmpty r).grouping = s.grouping := by
  unfold dropIfEmpty
  split <;> rfl

theorem grouping_moveTarget (s : Stage κ) (targetId : UInt32) :
    (s.moveTarget targetId).1.grouping = s.grouping := by
  unfold moveTarget
  split <;> rfl

theorem grouping_reorder (s : Stage κ) (order : Option (List UInt32)) :
    (s.reorder order).grouping = s.grouping := by
  obtain ⟨l, hl, -⟩ := reorder_eq s order
  rw [hl]
  rfl

/-- The set a key joins is the active one, or a new one. -/
theorem Owned.ensureActive_group (h : s.Owned) : s.grouping.active = some s.ensureActive.2 ∨
    s.grouping.active = none ∧ ∀ j, s.grouping.group j ≠ some s.ensureActive.2 := by
  rcases ensureActive_cases s with ⟨ha, -⟩ | ⟨ha, hr, -⟩
  · exact Or.inl ha
  · exact Or.inr ⟨ha, fun j => hr ▸ h.not_mem_refs_owner h.nextRef_not_mem⟩

theorem grouping_ensureActive (s : Stage κ) :
    s.ensureActive.1.grouping = s.grouping.gather s.ensureActive.2 := by
  refine grouping_eq ?_ (ensureActive_active s) (fun j => ensureActive_hidden s ▸ Iff.rfl)
    fun j => ensureActive_userMinimized s ▸ Iff.rfl
  funext j
  rw [ensureActive_owner]
  by_cases hj : j ∈ s.grouping.activeMembers
  · rw [Grouping.group_gather_of_mem hj]
    rcases ensureActive_cases s with ⟨ha, -⟩ | ⟨ha, -⟩
    · exact hj.2.trans ha
    · exact absurd (hj.2.trans ha) hj.1
  · exact (Grouping.group_gather_of_notMem hj).symm

variable [DecidableEq κ]

/-- `add_window`, for a key that has no set. -/
theorem grouping_addWindow (hk : s.owner k = none) :
    (s.addWindow k).grouping = s.grouping.join k s.ensureActive.2 := by
  rw [addWindow, if_neg (by simp [hk])]
  refine grouping_eq ?_ (ensureActive_active s) (fun j => ?_) fun j => ?_
  · funext j
    simp [grouping, Grouping.join, Function.update_apply]
  · exact ensureActive_hidden s ▸ Iff.rfl
  · exact ensureActive_userMinimized s ▸ Iff.rfl

/-- `remove_window`, for a key that has a set. -/
theorem grouping_removeWindow (hk : s.owner k = some r) :
    (s.removeWindow k).grouping = s.grouping.forget k := by
  simp only [removeWindow, hk, grouping_dropIfEmpty]
  refine grouping_eq rfl rfl (fun j => ?_) fun j => ?_
  · simp [grouping, Grouping.forget, and_comm]
  · simp [grouping, Grouping.forget, and_comm]

/-- `set_user_minimized`, for a key that has a set. -/
theorem grouping_setUserMinimized (hk : s.owner k ≠ none) (b : Bool) :
    (s.setUserMinimized k b).grouping = s.grouping.minimize k b := by
  rw [setUserMinimized, if_neg (by simpa using hk)]
  cases b <;> simp [grouping, Grouping.minimize]

/-- `mark_shown`. -/
theorem grouping_markShown (s : Stage κ) (k : κ) :
    (s.markShown k).grouping = s.grouping.unmark k := by
  simp [grouping, markShown, Grouping.unmark]

/-- `restore_window`, for a key that has no set. -/
theorem grouping_restoreWindow (hk : s.owner k = none) (setId : UInt32) (minimized hidden : Bool) :
    ∃ g a, (s.restoreWindow k setId minimized hidden).grouping =
      { s.grouping.place k g minimized hidden with active := a } := by
  have hflag : ∀ t : Stage κ, t.hidden = s.hidden → t.userMinimized = s.userMinimized →
      (∃ g, t.owner = Function.update s.owner k (some g)) →
      ∃ g a, (t.flagRestored k minimized hidden).grouping =
        { s.grouping.place k g minimized hidden with active := a } := by
    rintro t hth htm ⟨g, hto⟩
    refine ⟨g, t.active, ?_⟩
    cases minimized <;> cases hidden <;>
      simp [flagRestored, grouping, Grouping.place, hth, htm, hto]
  rw [restoreWindow, if_neg (by simp [hk])]
  split
  · rw [addWindow, if_neg (by simp [hk])]
    refine hflag _ (ensureActive_hidden s) (ensureActive_userMinimized s) ⟨s.ensureActive.2, ?_⟩
    rw [pushWindow, ensureActive_owner]
  · have hres : (s.reserveId setId).hidden = s.hidden ∧
        (s.reserveId setId).userMinimized = s.userMinimized ∧
        (s.reserveId setId).owner = s.owner := by
      unfold reserveId; split <;> exact ⟨rfl, rfl, rfl⟩
    refine hflag _ ?_ ?_ ⟨((s.reserveId setId).findOrAdd setId).2, ?_⟩
    · exact Eq.trans (by unfold findOrAdd; split <;> rfl) hres.1
    · exact Eq.trans (by unfold findOrAdd; split <;> rfl) hres.2.1
    · have : ((s.reserveId setId).findOrAdd setId).1.owner = s.owner :=
        Eq.trans (by unfold findOrAdd; split <;> rfl) hres.2.2
      rw [← this]
      rfl

/-! ### `restore_finish` -/

theorem grouping_mergeActiveInto (h : s.Owned) (w : ℕ) :
    (s.mergeActiveInto w).grouping = s.grouping.gather w := by
  unfold mergeActiveInto
  split
  · next ha =>
    refine Grouping.ext ?_ rfl rfl rfl
    funext j
    have : j ∉ s.grouping.activeMembers := fun hj => hj.1 (hj.2.trans ha)
    exact (if_neg this).symm
  · next a ha =>
    rw [foldl_pushWindow]
    refine Grouping.ext ?_ rfl rfl rfl
    funext j
    change (if j ∈ (s.sets a).windows then some w else s.owner j) = _
    have hmem := h.mem_windows_active (k := j) ha
    split
    · next hj => exact (Grouping.group_gather_of_mem (hmem.mp hj)).symm
    · next hj => exact (Grouping.group_gather_of_notMem fun hc => hj (hmem.mpr hc)).symm

/-- The set that is active after the first half of `restore_finish` has taken the active set's
windows in. -/
theorem Owned.grouping_chooseActive (h : s.Owned) (activeId : UInt32) :
    (s.chooseActive activeId).1.grouping = s.grouping.gather (s.chooseActive activeId).2 := by
  unfold Stage.chooseActive
  split
  · next w hw =>
    split
    · exact grouping_ensureActive s
    · have hact : (s.mergeActiveInto w).active = some w := rfl
      have he : (s.mergeActiveInto w).ensureActive = (s.mergeActiveInto w, w) := by
        rw [Stage.ensureActive, hact]
      change (s.mergeActiveInto w).ensureActive.1.grouping =
        s.grouping.gather (s.mergeActiveInto w).ensureActive.2
      rw [he]
      exact grouping_mergeActiveInto h w
  · exact grouping_ensureActive s

theorem chooseActive_active (s : Stage κ) (activeId : UInt32) :
    (s.chooseActive activeId).1.active = some (s.chooseActive activeId).2 :=
  ensureActive_active _

/-- `restore_finish`. -/
theorem Owned.grouping_restoreFinish (h : s.Owned) (activeId : UInt32)
    (order : Option (List UInt32)) : (s.restoreFinish activeId order).1.grouping =
      (s.grouping.gather (s.chooseActive activeId).2).settle := by
  obtain ⟨t, ht⟩ : ∃ t, t = (s.chooseActive activeId).1.reorder order := ⟨_, rfl⟩
  have howned : t.Owned := ht ▸ (h.chooseActive activeId).reorder order
  have hgroup : t.grouping = s.grouping.gather (s.chooseActive activeId).2 := by
    rw [ht, grouping_reorder, h.grouping_chooseActive]
  have hact : t.active = some (s.chooseActive activeId).2 :=
    (congrArg Grouping.active hgroup)
  rw [← hgroup]
  refine Grouping.ext (by rw [ht]; rfl) (by rw [ht]; rfl) ?_ (by rw [ht]; rfl)
  ext j
  have hmem := howned.mem_windows_active (k := j) hact
  have hin := howned.mem_windows_inactive (k := j)
  change j ∈ ((s.restoreFinish activeId order).1.hidden : Set κ) ↔ _
  rw [Finset.mem_coe]
  change j ∈ (hideLoop ((s.chooseActive activeId).1.reorder order).userMinimized
    (showLoop ((s.chooseActive activeId).1.reorder order).hidden
      ((((s.chooseActive activeId).1.reorder order).sets (s.chooseActive activeId).2).windows)).1
    (((s.chooseActive activeId).1.reorder order).inactive.flatMap fun r =>
      ((((s.chooseActive activeId).1.reorder order).sets r)).windows)).1 ↔ _
  rw [← ht, mem_hideLoop, mem_showLoop, hmem, List.mem_flatMap, hin]
  rfl

/-! ### `activate` and `move_window` -/

/-- The windows `activate` puts away. -/
theorem mem_putAway_hidden (h : s.Owned) (l : List ℕ) :
    k ∈ (putAway { s with inactive := l }).1.hidden ↔
      k ∈ s.hidden ∨ k ∈ s.grouping.activeMembers ∧ k ∉ s.userMinimized := by
  unfold putAway
  split
  · next ha =>
    have : k ∉ s.grouping.activeMembers := fun hk => hk.1 (hk.2.trans ha)
    tauto
  · next previous ha =>
    have hhid : k ∈ (hideLoop s.userMinimized s.hidden (s.sets previous).windows).1 ↔
        k ∈ s.hidden ∨ k ∈ s.grouping.activeMembers ∧ k ∉ s.userMinimized := by
      rw [mem_hideLoop, h.mem_windows_active ha]
    split <;> exact hhid

theorem putAway_userMinimized (s : Stage κ) : (putAway s).1.userMinimized = s.userMinimized := by
  unfold putAway
  split
  · rfl
  · split <;> rfl

/-- `activate`. -/
theorem Owned.grouping_activate (h : s.Owned) (id : UInt32) :
    (s.activate id).1 = s ∨ ∃ target ∈ s.inactive, (s.sets target).id = id ∧
      (s.activate id).1.grouping = s.grouping.switchTo target := by
  rcases activate_cases s id with he | ⟨target, hin, hid, hne, he, -, howner, -, hact, -⟩
  · exact Or.inl (by rw [he])
  · refine Or.inr ⟨target, hin, hid, ?_⟩
    rw [he]
    refine Grouping.ext howner hact ?_ ?_
    · ext j
      have ho := h.owner_iff j target
      have hj : j ∈ (s.sets target).windows ↔ j ∈ s.grouping.members target :=
        ⟨fun hj => ho.mpr ⟨mem_refs.mpr (Or.inr hin), hj⟩, fun hj => (ho.mp hj).2⟩
      change j ∈ ((showLoop (putAway { s with inactive := s.inactive.erase target }).1.hidden
        (s.sets target).windows).1 : Set κ) ↔ _
      rw [Finset.mem_coe, mem_showLoop, mem_putAway_hidden h, hj]
      rfl
    · change ((putAway { s with inactive := s.inactive.erase target }).1.userMinimized : Set κ) = _
      rw [putAway_userMinimized]
      rfl

/-- `move_window`. -/
theorem grouping_moveWindow (s : Stage κ) (k : κ) (targetId : UInt32) :
    s.moveWindow k targetId = (s, {}) ∨
      s.owner k ≠ none ∧ (s.moveWindow k targetId).1.grouping =
        s.grouping.move k (s.moveTarget targetId).2 := by
  unfold Stage.moveWindow
  split
  · exact Or.inl rfl
  · next source hk =>
    split
    · exact Or.inl rfl
    · refine Or.inr ⟨by simp [hk], ?_⟩
      obtain ⟨t, ht⟩ : ∃ t, t = ((s.moveTarget targetId).1.dropWindow source k).pushWindow
        (s.moveTarget targetId).2 k := ⟨_, rfl⟩
      have hg := grouping_moveTarget s targetId
      have howner : t.owner = Function.update s.owner k (some (s.moveTarget targetId).2) := by
        rw [ht]
        exact congrArg (fun v => Function.update (Grouping.group v) k _) hg
      have hactive : t.active = s.active := by rw [ht]; exact congrArg Grouping.active hg
      have hhidden : t.hidden = s.hidden := by
        rw [ht]; exact Finset.coe_injective (congrArg Grouping.hidden hg)
      have hmin : t.userMinimized = s.userMinimized := by
        rw [ht]; exact Finset.coe_injective (congrArg Grouping.minimized hg)
      simp only [grouping_dropIfEmpty, ← ht]
      obtain ⟨hidden, he⟩ := moveFlags_eq t k source (s.moveTarget targetId).2
      have hact : k ∈ s.grouping.activeMembers ↔ s.active = some source := by
        rw [mem_activeMembers_grouping, hk]
        simp [eq_comm]
      refine grouping_eq (by rw [he]; exact howner) (by rw [he]; exact hactive) (fun j => ?_)
        fun j => by rw [he]; exact hmin ▸ Iff.rfl
      rw [Grouping.mem_hidden_move, hact]
      change j ∈ (t.moveFlags k source (s.moveTarget targetId).2).1.hidden ↔
        s.active = some _ ∧ j ∈ (s.hidden : Set κ) ∧ _ ∨
        s.active ≠ some _ ∧ (j ∈ (s.hidden : Set κ) ∨ j = k ∧ _ ∧ k ∉ (s.userMinimized : Set κ))
      simp only [Finset.mem_coe]
      unfold moveFlags
      rw [hactive]
      split
      · next hc =>
        change j ∈ (showLoop t.hidden [k]).1 ↔ _
        rw [mem_showLoop, hhidden]
        simp [hc]
      · next hc =>
        split
        · next hs =>
          change j ∈ (hideLoop t.userMinimized t.hidden [k]).1 ↔ _
          rw [mem_hideLoop, hhidden, hmin, List.mem_singleton]
          grind
        · next hs =>
          rw [hhidden]
          tauto

/-! ### `adopt` -/

/-- The windows of the inactive sets of the other model, after the first half of `adopt`. -/
theorem Apart.mem_windows_adoptActive {other : StageModel κ} (h : s.Owned) (ha : s.Apart other)
    (k : κ) : (∃ r ∈ other.inactive, k ∈ ((s.adoptActive other).sets r).windows) ↔
      other.owner k ≠ none ∧ ¬(other.owner k ≠ none ∧ other.owner k = other.active) := by
  obtain ⟨h1, -⟩ := ha.adopt h
  have hin := ha.owned.mem_windows_inactive (k := k)
  rw [mem_activeMembers_grouping, mem_grouped_grouping] at hin
  refine Iff.trans ?_ hin
  exact exists_congr fun r => and_congr_right fun hr => by rw [(h1.others r hr).1]

/-- `adopt`, for a model that is apart. -/
theorem Apart.grouping_adopt {other : StageModel κ} (h : s.Owned) (ha : s.Apart other)
    (hm : Grouping.Marked (grouping ⟨s.toHeap, other⟩)) : (s.adopt other).1.grouping =
      s.grouping.absorb (grouping ⟨s.toHeap, other⟩) (s.adoptActive other).active := by
  obtain ⟨h1, h2⟩ := ha.adopt h
  have ho := ha.owned
  have hin := ha.mem_windows_adoptActive h
  have hmarked := Grouping.marked_iff.mp hm
  refine Grouping.ext ?_ ?_ ?_ ?_
  · funext j
    refine Option.ext fun r => ?_
    have hor := ho.owner_iff j r
    change (s.adopt other).1.owner j = some r ↔ _
    rw [h2.owner_iff, h1.owner]
    by_cases hact : other.owner j ≠ none ∧ other.owner j = other.active
    · rw [if_pos hact, Grouping.group_absorb_active _ hact]
      exact or_iff_left fun hc => ((hin j).mp ⟨r, hc.1, hc.2⟩).2 hact
    · rw [if_neg hact]
      by_cases hsome : other.owner j ≠ none
      · rw [Grouping.group_absorb_rest _ hsome hact, (ha.keys j).resolve_right hsome]
        constructor
        · rintro (hc | ⟨hr, hc⟩)
          · cases hc
          · rw [(h1.others r hr).1] at hc
            exact hor.mpr ⟨mem_refs.mpr (Or.inr hr), hc⟩
        · intro hc
          obtain ⟨hr, hw⟩ := hor.mp hc
          have hr' : r ∈ other.inactive := (mem_refs.mp hr).resolve_left fun ha' =>
            hact ⟨hsome, (show other.owner j = some r from hc).trans ha'.symm⟩
          exact Or.inr ⟨hr', by rw [(h1.others r hr').1]; exact hw⟩
      · rw [Grouping.group_absorb_own _ hsome]
        exact or_iff_left fun hc => hsome ((hin j).mp ⟨r, hc.1, hc.2⟩).1
  · exact h2.active
  · ext j
    have hmj := (hmarked j).1
    change j ∈ ((s.adopt other).1.hidden : Set κ) ↔
      j ∈ (s.hidden : Set κ) ∪ (↑other.hidden \ Grouping.activeMembers _)
    rw [Set.mem_union, Set.mem_sdiff, Finset.mem_coe, Finset.mem_coe, Finset.mem_coe,
      h2.hidden_iff, hin, h1.hidden, mem_activeMembers_grouping]
    refine or_congr_right (and_congr_right fun hj => ?_)
    exact and_iff_right (hmj hj)
  · ext j
    have hmj := (hmarked j).2
    change j ∈ ((s.adopt other).1.userMinimized : Set κ) ↔
      j ∈ (s.userMinimized : Set κ) ∪ ↑other.userMinimized
    rw [Set.mem_union, Finset.mem_coe, Finset.mem_coe, Finset.mem_coe,
      h2.minimized_iff, hin, h1.minimized_iff]
    have hsome : j ∈ other.userMinimized → other.owner j ≠ none := hmj
    tauto

end Stage

end SingularityShell
