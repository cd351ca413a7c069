import SingularityShell.Stage.Issue
import SingularityShell.Stage.Visibility

/-!
# A restart gives the same stage back

The compositor keeps, for every window, the id of its set, whether it is minimised and whether the
stage has hidden it; the shell saves the id of the active set and the order of the others. After a
restart `StageManager.enable` calls `restore_window` for every window, in the order the compositor
lists them, and `restore_finish` with what was saved. The result is the stage there was before,
whatever that order.

The induction over the windows carries `Restored`: all sets are inactive so far, each is named by
its id, and its windows are those of the set with that id that have been restored already.

## Main definitions

* `Stage.restart` — the calls of `enable`
* `SameStage` — equal but for the identity of the `StageSet` objects

## Main results

* `Stage.restart_same` — the round trip, for a settled model with ids in order
* `World.run_restart` — the round trip for every model a process can reach, and the ids of the sets
  that are created after it
-/

namespace SingularityShell

variable {ι κ : Type*}

namespace Stage

variable {s t m : Stage κ} {r : ℕ} {k : κ}

/-- The id of the set a window is in: the group the compositor keeps for it. -/
def setId (s : Stage κ) (k : κ) : Option UInt32 := (s.owner k).map fun r => (s.sets r).id

/-- The ids of the sets that have a window. -/
def setIds (s : Stage κ) : Set UInt32 := {id | ∃ k, s.setId k = some id}

/-- The id of the active set, `0` when there is none. -/
def activeId (s : Stage κ) : UInt32 := (s.active.map fun r => (s.sets r).id).getD 0

/-- The two models differ in their `StageSet` objects only. -/
structure Same (m t : Stage κ) : Prop where
  /-- The same windows in sets of the same ids. -/
  sets : ∀ k, t.setId k = m.setId k
  active : t.active.map (fun r => (t.sets r).id) = m.active.map fun r => (m.sets r).id
  order : t.setOrder = m.setOrder
  hidden : t.hidden = m.hidden
  userMinimized : t.userMinimized = m.userMinimized

/-! ### The loops of `restore_finish`, when they have nothing to do -/

/-- Sorting by an order that names every set once gives that order. -/
theorem map_id_sortSets (sets : ℕ → StageSet κ) {order : List UInt32} {inactive : List ℕ}
    (hnd : order.Nodup)
    (hinj : ∀ r ∈ inactive, ∀ q ∈ inactive, (sets r).id = (sets q).id → r = q)
    (hmem : ∀ id, id ∈ order ↔ ∃ r ∈ inactive, (sets r).id = id) :
    (sortSets sets order inactive).map (fun r => (sets r).id) = order := by
  have hnamed : ∀ (order' : List UInt32) (acc : List ℕ), order'.Nodup →
      (∀ id ∈ order', ∃ r ∈ inactive, (sets r).id = id) → (∀ r ∈ acc, (sets r).id ∉ order') →
      (order'.foldl (fun sorted id => inactive.foldl (fun sorted r =>
        if (sets r).id = id ∧ r ∉ sorted then sorted ++ [r] else sorted) sorted) acc).map
        (fun r => (sets r).id) = acc.map (fun r => (sets r).id) ++ order' := by
    intro order'
    induction order' with
    | nil => intro acc _ _ _; simp
    | cons id order' ih =>
      intro acc hnd' hcov hacc
      obtain ⟨hid, hnd'⟩ := List.nodup_cons.mp hnd'
      obtain ⟨r, hr, hrid⟩ := hcov id (by simp)
      have hra : r ∉ acc := fun hc => hacc r hc (by simp [hrid])
      rw [List.foldl_cons, Lists.foldl_append_of_unique (fun r => (sets r).id = id) hr hrid
        (fun q hq hqid => hinj q hq r hr (hqid.trans hrid.symm)) hra]
      rw [ih _ hnd' (fun id' hid' => hcov id' (by simp [hid'])) fun q hq => ?_]
      · simp [hrid]
      · rcases List.mem_append.mp hq with hq | hq
        · exact fun hc => hacc q hq (by simp [hc])
        · rw [List.mem_singleton.mp hq, hrid]
          exact hid
  have hall := hnamed order [] hnd (fun id hid => (hmem id).mp hid) (by simp)
  rw [sortSets_eq, Lists.foldl_append_of_forall_mem (fun _ => True)]
  · simpa [namedSets] using hall
  · intro r hr _
    have hin : (sets r).id ∈ (namedSets sets order inactive).map fun r => (sets r).id := by
      rw [namedSets, hall]
      exact (hmem _).mpr ⟨r, hr, rfl⟩
    obtain ⟨q, hq, hqid⟩ := List.mem_map.mp hin
    have hqin := (namedSets_aux sets order inactive [] List.nodup_nil (by simp)).2 q hq
    rwa [hinj r hr q hqin hqid.symm]

section
variable [DecidableEq κ]

theorem showLoop_of_forall_notMem {hidden : Finset κ} {keys : List κ}
    (h : ∀ k ∈ keys, k ∉ hidden) : showLoop hidden keys = (hidden, []) := by
  induction keys with
  | nil => rfl
  | cons key keys ih =>
    rw [showLoop, if_neg (h key (by simp))]
    exact ih fun k hk => h k (by simp [hk])

theorem hideLoop_of_forall_mem {userMinimized hidden : Finset κ} {keys : List κ}
    (h : ∀ k ∈ keys, k ∈ hidden ∨ k ∈ userMinimized) :
    hideLoop userMinimized hidden keys = (hidden, []) := by
  induction keys with
  | nil => rfl
  | cons key keys ih =>
    rw [hideLoop, if_pos (h key (by simp))]
    exact ih fun k hk => h k (by simp [hk])

end

/-! ### One window is restored -/

theorem findOrAdd_id (s : Stage κ) (id : UInt32) :
    ((s.findOrAdd id).1.sets (s.findOrAdd id).2).id = id := by
  unfold findOrAdd
  split
  · next r hr => exact (findSet_mem hr).2
  · change (Function.update s.sets s.nextRef ⟨id, []⟩ s.nextRef).id = id
    rw [Function.update_self]

theorem findOrAdd_keeps (s : Stage κ) (id : UInt32) :
    (s.findOrAdd id).1.active = s.active ∧ (s.findOrAdd id).1.owner = s.owner := by
  unfold findOrAdd
  split <;> exact ⟨rfl, rfl⟩

theorem reserveId_keeps (s : Stage κ) (id : UInt32) :
    (s.reserveId id).active = s.active ∧ (s.reserveId id).owner = s.owner := by
  unfold reserveId
  split <;> exact ⟨rfl, rfl⟩

theorem Numbered.setId_pos (hn : m.Numbered) (ho : m.Owned) {id : UInt32}
    (h : m.setId k = some id) : 0 < id ∧ id < m.nextId := by
  obtain ⟨r, hr, rfl⟩ := Option.map_eq_some_iff.mp h
  have hmem := ((ho.owner_iff k r).mp hr).1
  exact ⟨hn.pos r hmem, hn.below r hmem⟩

theorem setId_none : s.setId k = none ↔ s.owner k = none := by
  simp [Stage.setId]

variable [DecidableEq κ]

theorem flagRestored_keeps (s : Stage κ) (k : κ) (minimized hidden : Bool) :
    (s.flagRestored k minimized hidden).active = s.active ∧
      (s.flagRestored k minimized hidden).owner = s.owner ∧
      (s.flagRestored k minimized hidden).toHeap = s.toHeap := by
  unfold flagRestored
  split
  · exact ⟨rfl, rfl, rfl⟩
  · split <;> exact ⟨rfl, rfl, rfl⟩

/-- A new window joins the set with the id it was in; which set is active does not change. -/
theorem restoreWindow_owner (hk : s.owner k = none) {setId : UInt32} (h0 : setId ≠ 0)
    (minimized hidden : Bool) :
    (s.restoreWindow k setId minimized hidden).active = s.active ∧
      ∃ r, (s.restoreWindow k setId minimized hidden).owner = Function.update s.owner k (some r) ∧
        ((s.restoreWindow k setId minimized hidden).sets r).id = setId := by
  obtain ⟨u, hu⟩ : ∃ u, u = (s.reserveId setId).findOrAdd setId := ⟨_, rfl⟩
  have hf := findOrAdd_keeps (s.reserveId setId) setId
  have hr := reserveId_keeps s setId
  have hid := findOrAdd_id (s.reserveId setId) setId
  rw [← hu] at hf hid
  rw [restoreWindow, if_neg (by simp [hk]), if_neg h0]
  simp only [← hu]
  obtain ⟨h1, h2, h3⟩ := flagRestored_keeps (u.1.pushWindow u.2 k) k minimized hidden
  refine ⟨h1.trans (hf.1.trans hr.1), u.2, ?_, ?_⟩
  · rw [h2, ← hr.2, ← hf.2]
    rfl
  · rw [h3, id_pushWindow, hid]

/-! ### All windows are restored -/

/-- The calls of `enable`: a `restore_window` for every window, with what the compositor knows of
it, and `restore_finish` with what was saved. -/
def restoreAll (m t : Stage κ) (keys : List κ) : Stage κ :=
  keys.foldl (fun t key => t.restoreWindow key ((m.setId key).getD 0)
    (decide (key ∈ m.hidden) || decide (key ∈ m.userMinimized)) (decide (key ∈ m.hidden))) t

/-- The stage `m` after a restart of the shell, the compositor listing its windows as `keys`. -/
def restart (m t : Stage κ) (keys : List κ) : Stage κ × StagePlan κ :=
  (m.restoreAll t keys).restoreFinish m.activeId (some m.setOrder)

/-- What holds while the windows `keys` of `m` have been restored into `t`. -/
structure Restored (m t : Stage κ) (keys : List κ) : Prop where
  owned : t.Owned
  noEmpty : t.NoEmpty
  numbered : t.Numbered
  active : t.active = none
  setId : ∀ k, t.setId k = if k ∈ keys then m.setId k else none
  hidden : ∀ k, k ∈ t.hidden ↔ k ∈ m.hidden ∧ k ∈ keys
  userMinimized : ∀ k, k ∈ t.userMinimized ↔ k ∈ m.userMinimized ∧ k ∈ keys

theorem restored_nil (ht : t.Numbered) (hf : t.toStageModel = .fresh) : Restored m t [] := by
  obtain ⟨h, _⟩ := t
  subst hf
  exact ⟨owned_fresh h, noEmpty_fresh h, ht, rfl, fun k => rfl, by simp [StageModel.fresh],
    by simp [StageModel.fresh]⟩

theorem Restored.snoc {keys : List κ} (h : Restored m t keys) (hm : m.Numbered) (ho : m.Owned)
    (hdisj : ∀ k ∈ m.hidden, k ∉ m.userMinimized) (hk : m.owner k ≠ none) (hnew : k ∉ keys) :
    Restored m (t.restoreWindow k ((m.setId k).getD 0)
      (decide (k ∈ m.hidden) || decide (k ∈ m.userMinimized)) (decide (k ∈ m.hidden)))
      (keys ++ [k]) := by
  obtain ⟨id, hid⟩ := Option.ne_none_iff_exists'.mp (mt setId_none.mp hk)
  obtain ⟨hpos, hlt⟩ := hm.setId_pos ho hid
  have hfree : t.owner k = none := by
    have := h.setId k
    rw [if_neg hnew] at this
    exact setId_none.mp this
  have h0 : id ≠ 0 := by grind
  have hmax : id ≠ maxId := by
    unfold maxId
    grind
  rw [hid, Option.getD_some]
  obtain ⟨hact, q, hown, hq⟩ := restoreWindow_owner hfree h0
    (decide (k ∈ m.hidden) || decide (k ∈ m.userMinimized)) (decide (k ∈ m.hidden))
  obtain ⟨hhid, hmin⟩ := hidden_restoreWindow t k id
    (decide (k ∈ m.hidden) || decide (k ∈ m.userMinimized)) (decide (k ∈ m.hidden))
  have hx := extends_restoreWindow t k id
    (decide (k ∈ m.hidden) || decide (k ∈ m.userMinimized)) (decide (k ∈ m.hidden))
  have hc := h.numbered.call h.owned (.restoreWindow k id
    (decide (k ∈ m.hidden) || decide (k ∈ m.userMinimized)) (decide (k ∈ m.hidden)))
    fun hw => hw.2.elim hmax fun hw => h0 hw.1
  refine ⟨h.owned.restoreWindow k id _ _, h.noEmpty.restoreWindow h.owned k id _ _, hc.numbered,
    hact.trans h.active, fun j => ?_, fun j => ?_, fun j => ?_⟩
  · rw [Stage.setId, hown]
    by_cases hj : j = k
    · subst hj
      simp [hq, hid]
    · rw [Function.update_of_ne hj]
      have hsame : (t.owner j).map (fun r => ((t.restoreWindow k id
          (decide (k ∈ m.hidden) || decide (k ∈ m.userMinimized)) (decide (k ∈ m.hidden))).sets
          r).id) = t.setId j := by
        refine Option.map_congr fun r hr => ?_
        exact hx.id r (h.owned.fresh r ((h.owned.owner_iff j r).mp hr).1)
      rw [hsame, h.setId]
      simp [hj]
  · have := hdisj k
    rw [hhid]
    by_cases hh : k ∈ m.hidden
    · rw [if_pos (by simp [hfree, hh]), Finset.mem_insert, h.hidden]
      simp only [List.mem_append, List.mem_singleton]
      grind
    · rw [if_neg (by simp [hh]), h.hidden]
      simp only [List.mem_append, List.mem_singleton]
      grind
  · have := hdisj k
    rw [hmin]
    by_cases hh : k ∈ m.userMinimized ∧ k ∉ m.hidden
    · rw [if_pos (by simp [hfree, hh]), Finset.mem_insert, h.userMinimized]
      simp only [List.mem_append, List.mem_singleton]
      grind
    · rw [if_neg (by simp; grind), h.userMinimized]
      simp only [List.mem_append, List.mem_singleton]
      grind

theorem restored_restoreAll (hm : m.Numbered) (ho : m.Owned)
    (hdisj : ∀ k ∈ m.hidden, k ∉ m.userMinimized) {keys done : List κ}
    (hk : ∀ k ∈ keys, m.owner k ≠ none) (hnd : (done ++ keys).Nodup) (h : Restored m t done) :
    Restored m (m.restoreAll t keys) (done ++ keys) := by
  induction keys generalizing t done with
  | nil => simpa [restoreAll] using h
  | cons key keys ih =>
    have hnew : key ∉ done := fun hc =>
      (List.nodup_append.mp hnd).2.2 key hc key (by simp) rfl
    have hnext := h.snoc hm ho hdisj (hk key (by simp)) hnew
    rw [show done ++ key :: keys = (done ++ [key]) ++ keys by simp] at hnd ⊢
    exact ih (fun k hk' => hk k (by simp [hk'])) hnd hnext

/-! ### `restore_finish` -/

/-- The owner of a restored window has the id of the owner it had. -/
theorem Restored.setId_of_owner {keys : List κ} (h : Restored m t keys) {r : ℕ}
    (hk : t.owner k = some r) : m.setId k = some (t.sets r).id ∧ k ∈ keys := by
  have := h.setId k
  rw [Stage.setId, hk, Option.map_some] at this
  split at this
  · next hm => exact ⟨this.symm, hm⟩
  · cases this

/-- Everything `restore_finish` needs to know of the state before it. -/
theorem Restored.choose {keys : List κ} (h : Restored m t keys) (hm : m.Numbered) (ho : m.Owned)
    (hkeys : ∀ k, k ∈ keys ↔ m.owner k ≠ none) {a : ℕ} (ha : m.active = some a)
    (hw : (m.sets a).windows ≠ []) :
    ∃ w ∈ t.inactive, (t.sets w).id = (m.sets a).id ∧
      t.chooseActive m.activeId =
      ({ t with inactive := t.inactive.erase w, active := some w }, w) := by
  have hamem : a ∈ m.refs := mem_refs.mpr (Or.inl ha)
  have hid : m.activeId = (m.sets a).id := by simp [activeId, ha]
  have h0 : m.activeId ≠ 0 := by
    have := hm.pos a hamem
    rw [hid]
    grind
  obtain ⟨k, hk⟩ := List.exists_mem_of_ne_nil _ hw
  have hka : m.owner k = some a := (ho.owner_iff k a).mpr ⟨hamem, hk⟩
  obtain ⟨r, hr⟩ : ∃ r, t.owner k = some r := by
    refine Option.ne_none_iff_exists'.mp fun hn => ?_
    have hset := h.setId k
    rw [if_pos ((hkeys k).mpr (by simp [hka])), setId_none.mpr hn] at hset
    exact absurd (setId_none.mp hset.symm) (by simp [hka])
  have hrid : (t.sets r).id = (m.sets a).id := by
    have := (h.setId_of_owner hr).1
    rw [Stage.setId, hka, Option.map_some] at this
    exact (Option.some_inj.mp this).symm
  have hrmem := ((h.owned.owner_iff k r).mp hr).1
  obtain ⟨w, hfind⟩ : ∃ w, t.findSet m.activeId = some w := by
    refine Option.ne_none_iff_exists'.mp fun hn => ?_
    exact findSet_none hn hrmem (hrid.trans hid.symm)
  obtain ⟨hwmem, hwid⟩ := findSet_mem hfind
  refine ⟨w, (mem_refs.mp hwmem).resolve_left (by simp [h.active]), hwid.trans hid, ?_⟩
  have hwanted : t.wantedSet m.activeId = some w := by
    rw [wantedSet, if_pos h0, hfind]
  simp only [chooseActive, hwanted, h.active, mergeActiveInto, reduceCtorEq, if_false]
  rfl

/-- `restore_finish` when the flags are as they should be already. -/
theorem restoreFinish_eq {c : Stage κ} {w : ℕ} {l : List ℕ} {activeId : UInt32}
    {order : Option (List UInt32)} (hc : s.chooseActive activeId = (c, w))
    (hl : c.reorder order = { c with inactive := l })
    (hshown : ∀ k ∈ (c.sets w).windows, k ∉ c.hidden)
    (haway : ∀ r ∈ l, ∀ k ∈ (c.sets r).windows, k ∈ c.hidden ∨ k ∈ c.userMinimized)
    (hne : ∀ r ∈ l, (c.sets r).windows ≠ []) :
    s.restoreFinish activeId order = ({ c with inactive := l }, {}) := by
  have hfilter : l.filter (fun r => !(c.sets r).windows.isEmpty) = l :=
    List.filter_eq_self.mpr fun r hr => by simpa using hne r hr
  have hhide : hideLoop c.userMinimized c.hidden (l.flatMap fun r => (c.sets r).windows) =
      (c.hidden, []) := hideLoop_of_forall_mem fun k hk => by
    obtain ⟨r, hr, hkr⟩ := List.mem_flatMap.mp hk
    exact haway r hr k hkr
  simp only [restoreFinish, hc, hl, showKeys, hideKeys, showLoop_of_forall_notMem hshown, hhide,
    hfilter]

/-- The inactive sets that are left are named by the saved order. -/
theorem Restored.mem_setOrder {keys : List κ} (h : Restored m t keys) (hm : m.Numbered)
    (ho : m.Owned) (hne : m.NoEmpty) (hkeys : ∀ k, k ∈ keys ↔ m.owner k ≠ none) {a w : ℕ}
    (ha : m.active = some a) (hwin : w ∈ t.inactive) (hwid : (t.sets w).id = (m.sets a).id)
    (id : UInt32) : id ∈ m.setOrder ↔ ∃ r ∈ t.inactive.erase w, (t.sets r).id = id := by
  have hnd := (List.nodup_append.mp h.owned.nodup).2.1
  have hnda : a ∉ m.inactive := by
    have := ho.nodup
    rw [refs_active ha, List.nodup_cons] at this
    exact this.1
  have hamem : a ∈ m.refs := mem_refs.mpr (Or.inl ha)
  have hwmem : w ∈ t.refs := mem_refs.mpr (Or.inr hwin)
  rw [setOrder, List.mem_map]
  constructor
  · rintro ⟨q, hq, rfl⟩
    obtain ⟨k, hk⟩ := List.exists_mem_of_ne_nil _ (hne q hq)
    have hqmem : q ∈ m.refs := mem_refs.mpr (Or.inr hq)
    have hkq : m.owner k = some q := (ho.owner_iff k q).mpr ⟨hqmem, hk⟩
    have hset : t.setId k = some (m.sets q).id := by
      rw [h.setId, if_pos ((hkeys k).mpr (by simp [hkq])), Stage.setId, hkq, Option.map_some]
    obtain ⟨r, hr, hrid⟩ := Option.map_eq_some_iff.mp hset
    have hrmem := ((h.owned.owner_iff k r).mp hr).1
    refine ⟨r, hnd.mem_erase_iff.mpr ⟨?_, (mem_refs.mp hrmem).resolve_left (by simp [h.active])⟩,
      hrid⟩
    rintro rfl
    exact hnda (hm.inj q hqmem a hamem (hrid.symm.trans hwid) ▸ hq)
  · rintro ⟨r, hr, rfl⟩
    obtain ⟨hrw, hrin⟩ := hnd.mem_erase_iff.mp hr
    have hrmem : r ∈ t.refs := mem_refs.mpr (Or.inr hrin)
    obtain ⟨k, hk⟩ := List.exists_mem_of_ne_nil _ (h.noEmpty r hrin)
    have hkr : t.owner k = some r := (h.owned.owner_iff k r).mpr ⟨hrmem, hk⟩
    obtain ⟨q, hq, hqid⟩ := Option.map_eq_some_iff.mp (h.setId_of_owner hkr).1
    have hqmem := ((ho.owner_iff k q).mp hq).1
    refine ⟨q, (mem_refs.mp hqmem).resolve_left fun hqa => hrw ?_, hqid⟩
    obtain rfl : a = q := Option.some_inj.mp (ha.symm.trans hqa)
    exact h.numbered.inj r hrmem w hwmem (hqid.symm.trans hwid.symm)

/-- The reordering puts the inactive sets in the saved order. -/
theorem Restored.reorder {keys : List κ} (h : Restored m t keys) {w : ℕ} {order : List UInt32}
    (hnd : order.Nodup)
    (hmem : ∀ id, id ∈ order ↔ ∃ r ∈ t.inactive.erase w, (t.sets r).id = id) :
    ∃ l, Stage.reorder { t with inactive := t.inactive.erase w, active := some w } (some order) =
        { t with inactive := l, active := some w } ∧
      (∀ r, r ∈ l ↔ r ∈ t.inactive.erase w) ∧ l.map (fun r => (t.sets r).id) = order := by
  have hin : ∀ r ∈ t.inactive.erase w, r ∈ t.refs := fun r hr =>
    mem_refs.mpr (Or.inr (List.mem_of_mem_erase hr))
  cases order with
  | nil =>
    have hnil : t.inactive.erase w = [] :=
      List.eq_nil_iff_forall_not_mem.mpr fun r hr => by simpa using (hmem _).mpr ⟨r, hr, rfl⟩
    exact ⟨t.inactive.erase w, rfl, fun r => Iff.rfl, by rw [hnil]; rfl⟩
  | cons id order =>
    exact ⟨_, rfl, fun r => mem_sortSets _ _ _ r, map_id_sortSets t.sets hnd
      (fun r hr q hq he => h.numbered.inj r (hin r hr) q (hin q hq) he) hmem⟩

/-- A restored window is in the set that becomes active exactly when it was in the active set. -/
theorem Restored.owner_active {keys : List κ} (h : Restored m t keys) (hm : m.Numbered)
    (ho : m.Owned) {a w : ℕ} (ha : m.active = some a) (hwin : w ∈ t.inactive)
    (hwid : (t.sets w).id = (m.sets a).id) {r : ℕ} (hr : t.owner k = some r) :
    r = w ↔ k ∈ m.grouping.activeMembers := by
  have hamem : a ∈ m.refs := mem_refs.mpr (Or.inl ha)
  obtain ⟨q, hq, hqid⟩ := Option.map_eq_some_iff.mp (h.setId_of_owner hr).1
  have hqmem := ((ho.owner_iff k q).mp hq).1
  have hrmem := ((h.owned.owner_iff k r).mp hr).1
  rw [mem_activeMembers_grouping, hq, ha]
  constructor
  · rintro rfl
    exact ⟨by simp, congrArg some (hm.inj q hqmem a hamem (hqid.trans hwid))⟩
  · rintro ⟨-, hqa⟩
    obtain rfl := Option.some_inj.mp hqa
    exact h.numbered.inj r hrmem w (mem_refs.mpr (Or.inr hwin)) (hqid.symm.trans hwid.symm)

/-- **The round trip.** A settled model with its ids in order, whose active set has a window, comes
back from any order of its windows, with nothing left to hide or show; the counter is past all its
ids then, and `restore_finish` made no set. -/
theorem restart_same (hm : m.Numbered) (ho : m.Owned) (hne : m.NoEmpty) (hs : m.Settled)
    {a : ℕ} (ha : m.active = some a) (hw : (m.sets a).windows ≠ []) {keys : List κ}
    (hperm : keys.Perm m.allWindows) (ht : t.Numbered) (hf : t.toStageModel = .fresh) :
    (Same m (m.restart t keys).1 ∧ (m.restart t keys).2 = {}) ∧
      (∀ k id, m.setId k = some id → id < (m.restart t keys).1.nextId) ∧
      (m.restoreAll t keys).refs ≠ [] := by
  have hkeys : ∀ k, k ∈ keys ↔ m.owner k ≠ none := fun k =>
    hperm.mem_iff.trans ho.mem_allWindows
  have h : Restored m (m.restoreAll t keys) keys := by
    have hnd : ([] ++ keys).Nodup := hperm.nodup_iff.mpr ho.nodup_allWindows
    exact restored_restoreAll hm ho hs.disjoint (fun k hk => (hkeys k).mp hk) hnd
      (restored_nil ht hf)
  rw [restart]
  generalize m.restoreAll t keys = u at h
  obtain ⟨w, hwin, hwid, hchoose⟩ := h.choose hm ho hkeys ha hw
  have horder : m.setOrder.Nodup :=
    (List.nodup_append.mp ho.nodup).2.1.map_on fun r hr q hq =>
      hm.inj r (mem_refs.mpr (Or.inr hr)) q (mem_refs.mpr (Or.inr hq))
  obtain ⟨l, hl, hmem, hlid⟩ := h.reorder horder
    (h.mem_setOrder hm ho hne hkeys ha hwin hwid)
  have hlin : ∀ r ∈ l, r ≠ w ∧ r ∈ u.inactive := fun r hr =>
    (List.nodup_append.mp h.owned.nodup).2.1.mem_erase_iff.mp ((hmem r).mp hr)
  have howner : ∀ r ∈ u.inactive, ∀ k ∈ (u.sets r).windows, u.owner k = some r := fun r hr k hk =>
    (h.owned.owner_iff k r).mpr ⟨mem_refs.mpr (Or.inr hr), hk⟩
  have hfin : u.restoreFinish m.activeId (some m.setOrder) =
      ({ u with inactive := l, active := some w }, {}) := by
    refine restoreFinish_eq hchoose hl (fun k hk => ?_) (fun r hr k hk => ?_) fun r hr =>
      h.noEmpty r (hlin r hr).2
    · have hact := (h.owner_active hm ho ha hwin hwid (howner w hwin k hk)).mp rfl
      exact fun hc => hs.active_shown k hact ((h.hidden k).mp hc).1
    · have hk' := howner r (hlin r hr).2 k hk
      have hact : k ∉ m.grouping.activeMembers := fun hc =>
        (hlin r hr).1 ((h.owner_active hm ho ha hwin hwid hk').mpr hc)
      have hin := (h.setId_of_owner hk').2
      exact (hs.rest_away k ((hkeys k).mp hin) hact).imp (fun hc => (h.hidden k).mpr ⟨hc, hin⟩)
        fun hc => (h.userMinimized k).mpr ⟨hc, hin⟩
  rw [hfin]
  refine ⟨⟨⟨fun k => ?_, ?_, hlid, ?_, ?_⟩, rfl⟩, fun k id hid => ?_,
    List.ne_nil_of_mem (mem_refs.mpr (Or.inr hwin))⟩
  · refine (h.setId k).trans ?_
    split
    · rfl
    · next hk => exact (setId_none.mpr (not_not.mp (mt (hkeys k).mpr hk))).symm
  · simp [ha, hwid]
  · ext k
    exact (h.hidden k).trans
      (and_iff_left_of_imp fun hk => (hkeys k).mpr (hs.hidden_grouped hk))
  · ext k
    exact (h.userMinimized k).trans
      (and_iff_left_of_imp fun hk => (hkeys k).mpr (hs.minimized_grouped hk))
  · have hset := h.setId k
    rw [if_pos ((hkeys k).mpr (mt setId_none.mpr (by simp [hid]))), hid] at hset
    exact (h.numbered.setId_pos h.owned hset).2

end Stage

/-! ### The process before and after the restart -/

namespace World

variable {ι' : Type*} [DecidableEq ι] [DecidableEq ι'] [DecidableEq κ]

/-- The calls by which a stage comes about: on model `i` windows come, go and move, sets are
switched, and the user minimises windows of the active set. The other models of the process may
see any call. -/
def Plain (i : ι) (w : World ι κ) : Event ι κ → Prop
  | .on l c => l = i → match c with
    | .addWindow _ | .removeWindow _ | .moveWindow .. | .activate _ => True
    | .setUserMinimized key _ => key ∈ (w.stage i).grouping.activeMembers
    | _ => False
  | .adopt l l' => i ≠ l ∧ i ≠ l' ∧ w.Legal (.adopt l l')

/-- The process has got here by plain calls on model `i`, and its counter has not wrapped. -/
def Grown (w : World ι κ) (i : ι) : Prop :=
  ∃ es, Transition.Guarded step (fun w e => w.Plain i e ∧ ¬w.Wraps e) (start .initial) es ∧
    Transition.run step (start .initial) es = w

/-- The process has got here by any calls, and its counter has not wrapped. -/
def Reached (w : World ι κ) : Prop :=
  ∃ es, Transition.Guarded step (fun w e => w.Legal e ∧ ¬w.Wraps e) (start .initial) es ∧
    Transition.run step (start .initial) es = w

theorem Reached.inOrder {w : World ι κ} (h : w.Reached) : w.InOrder := by
  obtain ⟨es, hg, rfl⟩ := h
  exact hg.invariant inOrder_step (inOrder_start (h := .initial) (by decide : (0 : UInt32) < 1))

theorem settled_plain {w : World ι κ} {i : ι} {e : Event ι κ} (h : w.InOrder)
    (hs : (w.stage i).Settled) (hp : w.Plain i e) : ((w.step e).stage i).Settled := by
  cases e with
  | on l c =>
    by_cases hl : l = i
    · subst hl
      rw [show (w.step (.on l c)).stage l = _ from stage_put_self _]
      have ho := h.sound.owned l
      have hp' := hp rfl
      cases c with
      | addWindow key => exact hs.addWindow ho key
      | removeWindow key => exact hs.removeWindow key
      | moveWindow key targetId => exact hs.moveWindow key targetId
      | activate id => exact hs.activate ho id
      | setUserMinimized key min => exact hs.setUserMinimized hp' min
      | restoreWindow | restoreFinish | markShown | clear => exact hp'.elim
    · rw [show (w.step (.on l c)).stage i = _ from stage_put_of_ne _ (Ne.symm hl)]
      exact hs
  | adopt l l' =>
    rw [stage_adopt_of_ne hp.1 hp.2.1]
    exact hs

theorem Grown.inOrder {w : World ι κ} {i : ι} (h : w.Grown i) :
    w.InOrder ∧ (w.stage i).Settled := by
  obtain ⟨es, hg, rfl⟩ := h
  refine hg.invariant (P := fun w => w.InOrder ∧ (w.stage i).Settled) (fun w e hw he => ?_) ?_
  · refine ⟨inOrder_step w e hw.1 ⟨?_, he.2⟩, settled_plain hw.1 hw.2 he.1⟩
    cases e with
    | on l c => trivial
    | adopt l l' => exact he.1.2.2
  · exact ⟨inOrder_start (h := .initial) (by decide : (0 : UInt32) < 1),
      (Scene.good_start (ι := ι) .initial).settled i rfl⟩

/-- What holds after a restart: the ids that came back are behind the counter, and no set that was
created since has one of them. -/
structure Kept (ids : Set UInt32) (first : ℕ) (w : World ι κ) : Prop where
  inOrder : w.InOrder
  first_le : first ≤ w.heap.nextRef
  behind : ∀ id ∈ ids, id < w.heap.nextId
  apart : ∀ l, ∀ r ∈ (w.stage l).refs, first ≤ r → (w.heap.sets r).id ∉ ids

theorem Kept.step {ids : Set UInt32} {first : ℕ} {w : World ι κ} (h : Kept ids first w)
    (hpos : 0 ∉ ids) {e : Event ι κ} (he : w.Legal e ∧ ¬w.Wraps e ∧ ¬w.Reissues ids e) :
    Kept ids first (w.step e) := by
  have hfair : w.Fair e := by
    cases e with
    | on l c => trivial
    | adopt l l' => exact he.1.1
  have hadv := h.inOrder.advances hfair he.2.1
  have hin := inOrder_step w e h.inOrder ⟨he.1, he.2.1⟩
  refine ⟨hin, h.first_le.trans hadv.nextRef, fun id hid => ?_, fun l r hr hle hmem => ?_⟩
  · have := h.behind id hid
    have := hadv.nextId
    grind
  · by_cases hlt : r < w.heap.nextRef
    · obtain ⟨l', hl'⟩ := hadv.old l r hr hlt
      rw [hadv.id r hlt] at hmem
      exact h.apart l' r hl' hle hmem
    · rcases hadv.issued l r hr (not_lt.mp hlt) with hge | htag
      · have := h.behind _ hmem
        grind
      · exact he.2.2 (h.inOrder.reissues_of_tag hpos hr (not_lt.mp hlt) htag hmem)

/-- The calls of a restart keep the process in order. -/
theorem InOrder.put_call {w : World ι κ} {j : ι} {s : Stage κ} (h : (w.put j s).InOrder)
    {c : Call κ} (hw : ¬s.Wraps c) : (w.put j (s.call c).1).InOrder := by
  have hstep := inOrder_step (w.put j s) (.on j c) h ⟨trivial, by
    rwa [Wraps, stage_put_self]⟩
  have hput : (w.put j s).step (.on j c) = w.put j (s.call c).1 := by
    rw [step, stage_put_self]
    simp [put]
  rwa [hput] at hstep

theorem InOrder.put_restoreAll {w : World ι κ} {j : ι} {m t : Stage κ} {keys : List κ}
    (hk : ∀ k ∈ keys, ∃ id, m.setId k = some id ∧ id ≠ 0 ∧ id ≠ maxId)
    (h : (w.put j t).InOrder) : (w.put j (m.restoreAll t keys)).InOrder := by
  induction keys generalizing t with
  | nil => exact h
  | cons key keys ih =>
    obtain ⟨id, hid, h0, hmax⟩ := hk key (by simp)
    refine ih (fun k hk' => hk k (by simp [hk'])) (h.put_call (c := .restoreWindow key _ _ _) ?_)
    rw [hid]
    exact fun hw => hw.2.elim hmax fun hw => h0 hw.1

/-- The process `w'` after `m` has been restored into its model `j`. -/
def restarted (w' : World ι' κ) (j : ι') (m : Stage κ) (keys : List κ) : World ι' κ :=
  w'.put j (m.restart (w'.stage j) keys).1

theorem InOrder.restarted {w' : World ι' κ} {j : ι'} {m : Stage κ} {keys : List κ} (h : w'.InOrder)
    (hk : ∀ k ∈ keys, ∃ id, m.setId k = some id ∧ id ≠ 0 ∧ id ≠ maxId)
    (hrefs : (m.restoreAll (w'.stage j) keys).refs ≠ []) : (w'.restarted j m keys).InOrder := by
  have hself : (w'.put j (w'.stage j)).InOrder := by
    rwa [show w'.put j (w'.stage j) = w' by simp [put, stage]]
  exact (InOrder.put_restoreAll hk hself).put_call
    (c := .restoreFinish m.activeId (some m.setOrder)) fun hw => hrefs hw.1

/-- **The round trip of a restart.** Model `i` came about by plain calls in a process whose counter
did not wrap, and has windows in its active set. Its windows are restored, in any order, into a new
model `j` of another process whose counter did not wrap. Then it is the same, there is nothing to
hide or show, and no set that is created later, while the counter does not wrap and no model is
given one of its tags as a new one, has one of its ids. -/
theorem run_restart {w : World ι κ} {i : ι} (hw : w.Grown i) {w' : World ι' κ} {j : ι'}
    (hw' : w'.Reached) (hj : w'.models j = .fresh) {a : ℕ} (ha : (w.stage i).active = some a)
    (hne : ((w.stage i).sets a).windows ≠ []) {keys : List κ}
    (hperm : keys.Perm (w.stage i).allWindows) :
    (w.stage i).Same ((w'.restarted j (w.stage i) keys).stage j) ∧
    ((w.stage i).restart (w'.stage j) keys).2 = {} ∧
    ∀ later, Transition.Guarded step
        (fun v e => v.Legal e ∧ ¬v.Wraps e ∧ ¬v.Reissues (w.stage i).setIds e)
        (w'.restarted j (w.stage i) keys) later →
      ∀ l, ∀ r ∈ ((Transition.run step (w'.restarted j (w.stage i) keys) later).stage l).refs,
        (w'.restarted j (w.stage i) keys).heap.nextRef ≤ r →
          ((Transition.run step (w'.restarted j (w.stage i) keys) later).heap.sets r).id ∉
            (w.stage i).setIds := by
  obtain ⟨hin, hs⟩ := hw.inOrder
  have hn := hin.numbered i
  have ho := hin.sound.owned i
  obtain ⟨⟨hsame, hplan⟩, hbehind, hrefs⟩ := Stage.restart_same hn ho (hin.sound.noEmpty i) hs ha
    hne hperm (hw'.inOrder.numbered j) hj
  have hids : ∀ k ∈ keys, ∃ id, (w.stage i).setId k = some id ∧ id ≠ 0 ∧ id ≠ maxId := by
    intro k hk
    have hown := ho.mem_allWindows.mp (hperm.mem_iff.mp hk)
    obtain ⟨id, hid⟩ := Option.ne_none_iff_exists'.mp (mt Stage.setId_none.mp hown)
    obtain ⟨hpos, hlt⟩ := hn.setId_pos ho hid
    exact ⟨id, hid, by grind, by unfold maxId; grind⟩
  have hput := hw'.inOrder.restarted (j := j) hids hrefs
  have hpos : (0 : UInt32) ∉ (w.stage i).setIds := by
    rintro ⟨k, hk⟩
    exact absurd (hn.setId_pos ho hk).1 (by decide)
  have hkept : Kept (w.stage i).setIds (w'.restarted j (w.stage i) keys).heap.nextRef
      (w'.restarted j (w.stage i) keys) := by
    refine ⟨hput, le_rfl, ?_, fun l r hr hle => ?_⟩
    · rintro id ⟨k, hk⟩
      exact hbehind k id hk
    · exact absurd ((hput.sound.owned l).fresh r hr) (not_lt.mpr hle)
  refine ⟨?_, hplan, fun later hlater l r hr hle => ?_⟩
  · rw [World.restarted, stage_put_self]
    exact hsame
  · exact (hlater.invariant (fun v e hv he => hv.step hpos he) hkept).apart l r hr hle

/-- Three sets, one window hidden by the stage and one minimised by the user, restored from the
last window to the first. -/
theorem run_restart_three : ((Transition.run step (start .initial)
    [.on () (.addWindow "a"), .on () (.addWindow "b"), .on () (.addWindow "c"),
      .on () (.setUserMinimized "b" true), .on () (.moveWindow "a" 0),
      .on () (.moveWindow "b" 0), .on () (.activate 2)] : World Unit String).stage ()).Same
    ((restarted (start .initial : World Unit String) () ((Transition.run step (start .initial)
      [.on () (.addWindow "a"), .on () (.addWindow "b"), .on () (.addWindow "c"),
        .on () (.setUserMinimized "b" true), .on () (.moveWindow "a" 0),
        .on () (.moveWindow "b" 0), .on () (.activate 2)] : World Unit String).stage ())
      ["b", "c", "a"]).stage ()) := by
  refine (run_restart (a := 1) ⟨_, ?_, rfl⟩ ⟨[], trivial, rfl⟩ rfl rfl (by decide) (by decide)).1
  refine And.intro ⟨fun _ => trivial, ?_⟩ <| And.intro ⟨fun _ => trivial, ?_⟩ <|
    And.intro ⟨fun _ => trivial, ?_⟩ <| And.intro ⟨fun _ => ⟨?_, ?_⟩, ?_⟩ <|
    And.intro ⟨fun _ => trivial, ?_⟩ <| And.intro ⟨fun _ => trivial, ?_⟩ <|
    And.intro ⟨fun _ => trivial, ?_⟩ trivial <;> decide

/-- Another model is given the tag `uint.MAX`, so the set of the only window here gets the id `0`;
`restore_window` takes that for no tag, and the window comes back in a set with another id. -/
theorem not_restart_of_wrap : ¬∀ (es : List (Event Bool String)),
    Transition.Guarded step (Plain false) (start .initial) es →
      ∀ a, ((Transition.run step (start .initial) es).stage false).active = some a →
        (((Transition.run step (start .initial) es).stage false).sets a).windows ≠ [] →
        ∀ keys, keys.Perm ((Transition.run step (start .initial) es).stage false).allWindows →
          ((Transition.run step (start .initial) es).stage false).Same
            ((restarted (start .initial : World Unit String) ()
              ((Transition.run step (start .initial) es).stage false) keys).stage ()) := by
  intro h
  have hsame := h [.on true (.restoreWindow "z" 4294967295 false false), .on false (.addWindow "a")]
    ⟨nofun, fun _ => trivial, trivial⟩ 1 rfl (by decide) ["a"] (by decide)
  exact absurd hsame.active (by decide)

end World

end SingularityShell
