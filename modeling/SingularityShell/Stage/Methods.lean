import SingularityShell.Stage.Partition

/-!
# The methods of `StageModel` keep ownership a partition
-/

namespace SingularityShell

namespace Stage

variable {κ : Type*} {s : Stage κ} {r : ℕ} {k : κ}

/-- No inactive set is empty. -/
def NoEmpty (s : Stage κ) : Prop := ∀ r ∈ s.inactive, (s.sets r).windows ≠ []

theorem Owned.reorder (h : s.Owned) (order : Option (List UInt32)) : (s.reorder order).Owned := by
  obtain ⟨l, hl, hmem, hnd⟩ := reorder_eq s order
  have hs := List.nodup_append.mp h.nodup
  rw [hl]
  refine h.shuffle ?_ ?_ ?_ rfl rfl rfl
  · refine List.nodup_append.mpr ⟨hs.1, hnd hs.2.1, fun a ha b hb => ?_⟩
    exact hs.2.2 a ha b ((hmem b).mp hb)
  · intro r hr
    rw [mem_refs] at hr ⊢
    exact hr.imp_right (hmem r).mp
  · intro r hr _
    rw [mem_refs] at hr ⊢
    exact hr.imp_right (hmem r).mpr

/-- The set `activate` puts in front of the inactive ones: the one that was active, unless it is
empty. -/
def frontSet (s : Stage κ) : List ℕ :=
  s.active.toList.filter fun r => !(s.sets r).windows.isEmpty

theorem mem_frontSet : r ∈ s.frontSet ↔ s.active = some r ∧ (s.sets r).windows ≠ [] := by
  simp [frontSet]

/-- Taking an inactive set that is empty out of the list. -/
theorem Owned.dropIfEmpty (h : s.Owned) (r : ℕ) : (s.dropIfEmpty r).Owned := by
  unfold Stage.dropIfEmpty
  split
  · next hc =>
    have hnd := List.nodup_append.mp h.nodup
    refine h.shuffle ?_ ?_ ?_ rfl rfl rfl
    · refine List.nodup_append.mpr ⟨hnd.1, hnd.2.1.erase r, fun a ha b hb => ?_⟩
      exact hnd.2.2 a ha b (List.mem_of_mem_erase hb)
    · intro q hq
      rw [mem_refs] at hq ⊢
      exact hq.imp_right List.mem_of_mem_erase
    · intro q hq hne
      rw [mem_refs] at hq ⊢
      refine hq.imp_right fun hm => ?_
      exact hnd.2.1.mem_erase_iff.mpr ⟨fun he => hne (he ▸ hc.2), hm⟩
  · exact h

/-- When at most one inactive set is empty, dropping that one leaves none. -/
theorem noEmpty_dropIfEmpty (h : s.Owned)
    (hne : ∀ q ∈ s.inactive, q ≠ r → (s.sets q).windows ≠ []) : (s.dropIfEmpty r).NoEmpty := by
  have hnd := List.nodup_append.mp h.nodup
  unfold Stage.dropIfEmpty
  split
  · intro q hq
    have hq' := hnd.2.1.mem_erase_iff.mp hq
    exact hne q hq'.2 hq'.1
  · next hc =>
    intro q hq
    by_cases hqr : q = r
    · subst hqr
      exact fun hw => hc ⟨fun ha => hnd.2.2 q (by simp [ha]) q hq rfl, hw⟩
    · exact hne q hq hqr

/-- The set a window moves to is not the one it comes from. -/
theorem moveTarget_ne (h : s.Owned) {targetId : UInt32} {source : ℕ}
    (hk : s.owner k = some source)
    (hc : ¬(targetId ≠ 0 ∧ (s.findSet targetId = none ∨ s.findSet targetId = some source))) :
    (s.moveTarget targetId).2 ≠ source := by
  unfold Stage.moveTarget
  split
  · next r hr =>
    split at hr
    · cases hr
    · next h0 =>
      intro he
      exact hc ⟨h0, Or.inr (hr.trans (congrArg some he))⟩
  · intro he
    have hsource := ((h.owner_iff k source).mp hk).1
    exact h.nextRef_not_mem ((show s.nextRef = source from he).symm ▸ hsource)

/-- Apart from the target, the inactive sets are old ones with their old windows. -/
theorem moveTarget_inactive (s : Stage κ) (targetId : UInt32) {q : ℕ}
    (hq : q ∈ (s.moveTarget targetId).1.inactive) (hne : q ≠ (s.moveTarget targetId).2) :
    q ∈ s.inactive ∧ ((s.moveTarget targetId).1.sets q).windows = (s.sets q).windows := by
  revert hq hne
  unfold Stage.moveTarget
  split
  · exact fun hq _ => ⟨hq, rfl⟩
  · intro hq hne
    have hq' : q ∈ s.inactive := (List.mem_cons.mp hq).resolve_left hne
    have hqn : q ≠ s.nextRef := hne
    refine ⟨hq', ?_⟩
    change ((Function.update s.sets s.nextRef ⟨s.nextId, []⟩) q).windows = _
    rw [Function.update_of_ne hqn]

theorem owned_fresh (h : Heap κ) : Owned ⟨h, .fresh⟩ where
  nodup := List.nodup_nil
  fresh r hr := by simp [refs, StageModel.fresh] at hr
  windows_nodup r hr := by simp [refs, StageModel.fresh] at hr
  owner_iff k r := by simp [refs, StageModel.fresh]

theorem noEmpty_fresh (h : Heap κ) : NoEmpty ⟨h, .fresh⟩ := by
  intro r hr
  simp [StageModel.fresh] at hr

theorem NoEmpty.ensureActive (ho : s.Owned) (h : s.NoEmpty) : s.ensureActive.1.NoEmpty := by
  unfold Stage.ensureActive
  split
  · exact h
  · intro q hq
    have hq' : q ≠ s.nextRef := fun he =>
      ho.nextRef_not_mem (he ▸ mem_refs.mpr (Or.inr hq))
    change ((Function.update s.sets s.nextRef ⟨s.nextId, []⟩) q).windows ≠ []
    rw [Function.update_of_ne hq']
    exact h q hq

theorem Owned.moveTarget (h : s.Owned) (targetId : UInt32) :
    (s.moveTarget targetId).1.Owned ∧
      (s.moveTarget targetId).2 ∈ (s.moveTarget targetId).1.refs ∧
      (s.moveTarget targetId).1.owner = s.owner := by
  unfold Stage.moveTarget
  split
  · next r hr =>
    split at hr
    · cases hr
    · exact ⟨h, (findSet_mem hr).1, rfl⟩
  · have hr := h.nextRef_not_mem
    have hmem : ∀ q, q ∈ s.active.toList ++ s.nextRef :: s.inactive ↔
        q = s.nextRef ∨ q ∈ s.refs := by
      intro q
      simp only [refs, List.mem_append, List.mem_cons]
      grind
    refine ⟨h.insertNew s.nextId ?_ hmem rfl rfl rfl, (hmem _).mpr (Or.inl rfl), rfl⟩
    exact List.nodup_middle.mpr (List.nodup_cons.mpr ⟨hr, h.nodup⟩)

variable [DecidableEq κ]

/-! ### The two loops over flags -/

theorem mem_showLoop (keys : List κ) (hidden : Finset κ) :
    k ∈ (showLoop hidden keys).1 ↔ k ∈ hidden ∧ k ∉ keys := by
  induction keys generalizing hidden with
  | nil => simp [showLoop]
  | cons key keys ih =>
    rw [showLoop]
    split
    · rw [ih]; simp only [Finset.mem_erase, List.mem_cons]; grind
    · rw [ih]; grind

/-- `plan.show` lists what the loop shows, once. -/
theorem showLoop_plan (keys : List κ) (hidden : Finset κ) :
    (showLoop hidden keys).2.Nodup ∧
      ∀ k, k ∈ (showLoop hidden keys).2 ↔ k ∈ keys ∧ k ∈ hidden := by
  induction keys generalizing hidden with
  | nil => simp [showLoop]
  | cons key keys ih =>
    rw [showLoop]
    split
    · next hk =>
      obtain ⟨hn, hm⟩ := ih (hidden.erase key)
      refine ⟨List.nodup_cons.mpr ⟨by simp [hm], hn⟩, fun k => ?_⟩
      simp only [List.mem_cons, hm, Finset.mem_erase]
      grind
    · obtain ⟨hn, hm⟩ := ih hidden
      refine ⟨hn, fun k => ?_⟩
      rw [hm]
      grind

theorem mem_hideLoop (keys : List κ) (userMinimized hidden : Finset κ) :
    k ∈ (hideLoop userMinimized hidden keys).1 ↔
      k ∈ hidden ∨ k ∈ keys ∧ k ∉ userMinimized := by
  induction keys generalizing hidden with
  | nil => simp [hideLoop]
  | cons key keys ih =>
    rw [hideLoop]
    split
    · rw [ih]; grind
    · rw [ih]; simp only [Finset.mem_insert, List.mem_cons]; grind

/-- `plan.hide` lists what the loop hides, once. -/
theorem hideLoop_plan (keys : List κ) (userMinimized hidden : Finset κ) :
    (hideLoop userMinimized hidden keys).2.Nodup ∧
      ∀ k, k ∈ (hideLoop userMinimized hidden keys).2 ↔
        k ∈ keys ∧ k ∉ hidden ∧ k ∉ userMinimized := by
  induction keys generalizing hidden with
  | nil => simp [hideLoop]
  | cons key keys ih =>
    rw [hideLoop]
    split
    · obtain ⟨hn, hm⟩ := ih hidden
      refine ⟨hn, fun k => ?_⟩
      rw [hm]
      grind
    · next hk =>
      obtain ⟨hn, hm⟩ := ih (insert key hidden)
      refine ⟨List.nodup_cons.mpr ⟨by simp [hm], hn⟩, fun k => ?_⟩
      simp only [List.mem_cons, hm, Finset.mem_insert]
      grind

/-! ### `restore_finish` -/

theorem Owned.restoreFinish (h : s.Owned) (activeId : UInt32) (order : Option (List UInt32)) :
    (s.restoreFinish activeId order).1.Owned := by
  have ht := (h.chooseActive activeId).reorder order
  refine ht.shuffle ?_ ?_ ?_ rfl rfl rfl
  · exact ht.nodup.sublist (List.filter_sublist.append_left _)
  · intro r hr
    rw [mem_refs] at hr ⊢
    exact hr.imp_right fun hm => (List.mem_filter.mp hm).1
  · intro r hr hne
    rw [mem_refs] at hr ⊢
    exact hr.imp_right fun hm => List.mem_filter.mpr ⟨hm, by simpa using hne⟩

theorem noEmpty_restoreFinish (s : Stage κ) (activeId : UInt32) (order : Option (List UInt32)) :
    (s.restoreFinish activeId order).1.NoEmpty := by
  intro r hr
  have := (List.mem_filter.mp hr).2
  change (((s.chooseActive activeId).1.reorder order).sets r).windows ≠ []
  simpa using this

/-! ### `activate` -/

/-- Either nothing happens, or the set with the given id becomes active. -/
theorem activate_cases (s : Stage κ) (id : UInt32) :
    s.activate id = (s, {}) ∨ ∃ target ∈ s.inactive, (s.sets target).id = id ∧
      s.active ≠ some target ∧
      let t := putAway { s with inactive := s.inactive.erase target }
      let u := showKeys { t.1 with active := some target } (s.sets target).windows
      s.activate id = (u.1, ⟨t.2, u.2⟩) ∧ u.1.sets = s.sets ∧ u.1.owner = s.owner ∧
        u.1.nextRef = s.nextRef ∧ u.1.active = some target ∧
        u.1.inactive = s.frontSet ++ s.inactive.erase target := by
  unfold Stage.activate
  split
  · exact Or.inl rfl
  · next target ht =>
    split
    · exact Or.inl rfl
    · next hne =>
      refine Or.inr ⟨target, (mem_refs.mp (findSet_mem ht).1).resolve_left hne,
        (findSet_mem ht).2, hne, ?_⟩
      unfold putAway frontSet
      cases ha : s.active with
      | none => exact ⟨rfl, rfl, rfl, rfl, rfl, rfl⟩
      | some previous =>
        by_cases hw : (s.sets previous).windows = []
        · refine ⟨?_, ?_, ?_, ?_, rfl, ?_⟩ <;> simp [hw, hideKeys, showKeys, hideLoop]
        · refine ⟨?_, ?_, ?_, ?_, rfl, ?_⟩ <;> simp [hw, hideKeys, showKeys]

/-- `activate` creates no set and moves no window. -/
theorem activate_toHeap (s : Stage κ) (id : UInt32) : (s.activate id).1.toHeap = s.toHeap := by
  unfold Stage.activate
  split
  · rfl
  · split
    · rfl
    · unfold putAway
      split
      · rfl
      · simp only [showKeys, hideKeys]
        split <;> rfl

theorem Owned.activate (h : s.Owned) (id : UInt32) : (s.activate id).1.Owned := by
  rcases activate_cases s id with he | ⟨target, hin, -, hne, he, hsets, howner, hnext, hact, hinact⟩
  · rwa [he]
  · rw [he]
    have hnd := List.nodup_append.mp h.nodup
    have hfront : ∀ q ∈ s.frontSet, q ∈ s.active.toList := fun q hq => (List.mem_filter.mp hq).1
    have hmem : ∀ q, q ∈ s.inactive.erase target ↔ q ≠ target ∧ q ∈ s.inactive := fun q =>
      hnd.2.1.mem_erase_iff
    refine h.shuffle ?_ ?_ ?_ hsets howner hnext
    · rw [refs_active hact, hinact, List.nodup_cons]
      refine ⟨fun hm => ?_, List.nodup_append.mpr ⟨hnd.1.filter _, hnd.2.1.erase _, ?_⟩⟩
      · rcases List.mem_append.mp hm with hm | hm
        · exact hne (mem_frontSet.mp hm).1
        · exact ((hmem _).mp hm).1 rfl
      · intro a ha b hb
        exact hnd.2.2 a (hfront a ha) b ((hmem b).mp hb).2
    · intro q hq
      rw [refs_active hact, hinact, List.mem_cons, List.mem_append, hmem, mem_frontSet] at hq
      rw [mem_refs]
      grind
    · intro q hq hw
      rw [refs_active hact, hinact, List.mem_cons, List.mem_append, hmem, mem_frontSet]
      rw [mem_refs] at hq
      grind

theorem NoEmpty.activate (h : s.NoEmpty) (id : UInt32) : (s.activate id).1.NoEmpty := by
  rcases activate_cases s id with he | ⟨target, -, -, -, he, hsets, -, -, -, hinact⟩
  · rwa [he]
  · rw [he]
    intro q hq
    rw [hinact, List.mem_append] at hq
    rw [hsets]
    rcases hq with hq | hq
    · exact (mem_frontSet.mp hq).2
    · exact h q (List.mem_of_mem_erase hq)

/-! ### `remove_window` -/

theorem Owned.removeWindow (h : s.Owned) (k : κ) : (s.removeWindow k).Owned := by
  unfold Stage.removeWindow
  split
  · exact h
  · next r hr =>
    exact ((h.forget hr).flags (s.hidden.erase k) (s.userMinimized.erase k)).dropIfEmpty r

theorem NoEmpty.removeWindow (ho : s.Owned) (h : s.NoEmpty) (k : κ) :
    (s.removeWindow k).NoEmpty := by
  unfold Stage.removeWindow
  split
  · exact h
  · next r hr =>
    refine noEmpty_dropIfEmpty
      ((ho.forget hr).flags (s.hidden.erase k) (s.userMinimized.erase k)) fun q hq hqr => ?_
    change ((s.dropWindow r k).sets q).windows ≠ []
    rw [windows_dropWindow, if_neg hqr]
    exact h q hq

/-! ### `move_window` -/

theorem moveFlags_eq (s : Stage κ) (k : κ) (source target : ℕ) :
    ∃ hidden, (s.moveFlags k source target).1 = { s with hidden := hidden } := by
  unfold moveFlags
  split
  · exact ⟨_, rfl⟩
  · split
    · exact ⟨_, rfl⟩
    · exact ⟨s.hidden, rfl⟩

theorem Owned.moveWindow (h : s.Owned) (k : κ) (targetId : UInt32) :
    (s.moveWindow k targetId).1.Owned := by
  unfold Stage.moveWindow
  split
  · exact h
  · next source hk =>
    split
    · exact h
    · next hc =>
      obtain ⟨ht, hmem, hown⟩ := h.moveTarget targetId
      have hu := ht.rehome (hown ▸ hk) hmem (moveTarget_ne h hk hc)
      obtain ⟨hidden, he⟩ := moveFlags_eq
        (((s.moveTarget targetId).1.dropWindow source k).pushWindow (s.moveTarget targetId).2 k)
        k source (s.moveTarget targetId).2
      refine Owned.dropIfEmpty ?_ source
      rw [he]
      exact hu.flags hidden _

theorem NoEmpty.moveWindow (ho : s.Owned) (h : s.NoEmpty) (k : κ) (targetId : UInt32) :
    (s.moveWindow k targetId).1.NoEmpty := by
  unfold Stage.moveWindow
  split
  · exact h
  · next source hk =>
    split
    · exact h
    · next hc =>
      obtain ⟨ht, hmem, hown⟩ := ho.moveTarget targetId
      have hu := ht.rehome (hown ▸ hk) hmem (moveTarget_ne ho hk hc)
      obtain ⟨hidden, he⟩ := moveFlags_eq
        (((s.moveTarget targetId).1.dropWindow source k).pushWindow (s.moveTarget targetId).2 k)
        k source (s.moveTarget targetId).2
      refine noEmpty_dropIfEmpty (by rw [he]; exact hu.flags hidden _) fun q hq hqs => ?_
      rw [he] at hq ⊢
      change ((((s.moveTarget targetId).1.dropWindow source k).pushWindow _ k).sets q).windows ≠ []
      rw [windows_pushWindow, windows_dropWindow, if_neg hqs]
      split
      · simp
      · next hne =>
        obtain ⟨hq', hw⟩ := moveTarget_inactive s targetId hq hne
        rw [hw]
        exact h q hq'

/-! ### The small methods -/

theorem Owned.setUserMinimized (h : s.Owned) (k : κ) (b : Bool) :
    (s.setUserMinimized k b).Owned := by
  unfold Stage.setUserMinimized
  split
  · exact h
  · split <;> exact h.flags _ _

theorem NoEmpty.setUserMinimized (h : s.NoEmpty) (k : κ) (b : Bool) :
    (s.setUserMinimized k b).NoEmpty := by
  unfold Stage.setUserMinimized
  split
  · exact h
  · split <;> exact h

theorem Owned.markShown (h : s.Owned) (k : κ) : (s.markShown k).Owned := h.flags _ _

theorem NoEmpty.markShown (h : s.NoEmpty) (k : κ) : (s.markShown k).NoEmpty := h

theorem noEmpty_pushWindow (h : ∀ q ∈ s.inactive, q ≠ r → (s.sets q).windows ≠ []) (k : κ) :
    (s.pushWindow r k).NoEmpty := by
  intro q hq
  rw [windows_pushWindow]
  split
  · simp
  · next hne => exact h q hq hne

theorem NoEmpty.addWindow (ho : s.Owned) (h : s.NoEmpty) (k : κ) : (s.addWindow k).NoEmpty := by
  unfold Stage.addWindow
  split
  · exact h
  · exact noEmpty_pushWindow (fun q hq _ => h.ensureActive ho q hq) k

theorem NoEmpty.flagRestored (h : s.NoEmpty) (minimized hidden : Bool) :
    (s.flagRestored k minimized hidden).NoEmpty := by
  unfold Stage.flagRestored
  split
  · exact h
  · split <;> exact h

theorem NoEmpty.restoreWindow (ho : s.Owned) (h : s.NoEmpty) (k : κ) (setId : UInt32)
    (minimized hidden : Bool) : (s.restoreWindow k setId minimized hidden).NoEmpty := by
  unfold Stage.restoreWindow
  split
  · exact h
  · split
    · exact (h.addWindow ho k).flagRestored _ _
    · have hres : (s.reserveId setId).NoEmpty ∧ (s.reserveId setId).Owned := by
        refine ⟨?_, ho.reserveId setId⟩
        unfold Stage.reserveId
        split <;> exact h
      refine NoEmpty.flagRestored (noEmpty_pushWindow (fun q hq hne => ?_) k) _ _
      revert hq hne
      unfold Stage.findOrAdd
      split
      · exact fun hq _ => hres.1 q hq
      · intro hq hne
        have hq' : q ∈ (s.reserveId setId).inactive :=
          (List.mem_append.mp hq).resolve_right fun hm => hne (List.mem_singleton.mp hm)
        have hqn : q ≠ (s.reserveId setId).nextRef := hne
        change ((Function.update (s.reserveId setId).sets (s.reserveId setId).nextRef
          ⟨setId, []⟩) q).windows ≠ []
        rw [Function.update_of_ne hqn]
        exact hres.1 q hq'

/-! ### `adopt` -/

/-- One round of the first loop of `adopt`, all rounds together. -/
theorem adoptActive_eq (s : Stage κ) (other : StageModel κ) :
    s.adoptActive other = s ∧ (∀ oa, other.active = some oa → (s.sets oa).windows = []) ∨
    ∃ oa, other.active = some oa ∧ (s.sets oa).windows ≠ [] ∧
      s.adoptActive other =
        { s.ensureActive.1.pushAll s.ensureActive.2 (s.sets oa).windows with
          userMinimized := s.ensureActive.1.userMinimized ∪
            (s.sets oa).windows.toFinset.filter (· ∈ other.userMinimized) } := by
  have hfold : ∀ (keys : List κ) (t : Stage κ) (a : ℕ), keys.foldl (fun t key =>
      { t.pushWindow a key with
        userMinimized :=
          if key ∈ other.userMinimized then insert key t.userMinimized else t.userMinimized }) t =
      { t.pushAll a keys with
        userMinimized := t.userMinimized ∪ keys.toFinset.filter (· ∈ other.userMinimized) } := by
    intro keys
    induction keys with
    | nil => intro t a; simp [pushAll]
    | cons key keys ih =>
      intro t a
      have hpush : t.pushAll a (key :: keys) = (t.pushWindow a key).pushAll a keys := by
        rw [← foldl_pushWindow, List.foldl_cons, foldl_pushWindow]
      have hset : t.userMinimized ∪ (key :: keys).toFinset.filter (· ∈ other.userMinimized) =
          (if key ∈ other.userMinimized then insert key t.userMinimized else t.userMinimized) ∪
            keys.toFinset.filter (· ∈ other.userMinimized) := by
        ext j
        split_ifs <;> simp only [Finset.mem_union, Finset.mem_filter, List.mem_toFinset,
          List.toFinset_cons, Finset.mem_insert] <;> grind
      rw [List.foldl_cons, ih, hpush, hset]
      rfl
  unfold adoptActive
  split
  · next h => exact Or.inl ⟨rfl, by simp [h]⟩
  · next oa h =>
    split
    · next hw =>
      refine Or.inl ⟨rfl, fun oa' h' => ?_⟩
      obtain rfl : oa = oa' := by simpa [h] using h'
      simpa using hw
    · next hw => exact Or.inr ⟨oa, h, by simpa using hw, hfold _ _ _⟩

theorem adoptSet_eq (s : Stage κ) (other : StageModel κ) (r : ℕ) (hw : (s.sets r).windows ≠ []) :
    s.adoptSet other r = { s with
      inactive := s.inactive ++ [r]
      owner := fun k => if k ∈ (s.sets r).windows then some r else s.owner k
      hidden := s.hidden ∪ (s.sets r).windows.toFinset.filter (· ∈ other.hidden)
      userMinimized :=
        s.userMinimized ∪ (s.sets r).windows.toFinset.filter (· ∈ other.userMinimized) } := by
  have hfold : ∀ (keys : List κ) (t : Stage κ), keys.foldl (fun t key =>
      { t with
        owner := Function.update t.owner key (some r)
        hidden := if key ∈ other.hidden then insert key t.hidden else t.hidden
        userMinimized :=
          if key ∈ other.userMinimized then insert key t.userMinimized else t.userMinimized }) t =
      { t with
        owner := fun k => if k ∈ keys then some r else t.owner k
        hidden := t.hidden ∪ keys.toFinset.filter (· ∈ other.hidden)
        userMinimized := t.userMinimized ∪ keys.toFinset.filter (· ∈ other.userMinimized) } := by
    intro keys
    induction keys with
    | nil => intro t; simp
    | cons key keys ih =>
      intro t
      rw [List.foldl_cons, ih]
      congr 2
      · funext j
        simp only [Function.update_apply, List.mem_cons]
        grind
      · ext j
        split_ifs <;> simp only [Finset.mem_union, Finset.mem_filter, List.mem_toFinset,
          List.toFinset_cons, Finset.mem_insert] <;> grind
      · ext j
        split_ifs <;> simp only [Finset.mem_union, Finset.mem_filter, List.mem_toFinset,
          List.toFinset_cons, Finset.mem_insert] <;> grind
  rw [adoptSet, if_neg (by simpa using hw), hfold]

theorem adoptSet_empty (s : Stage κ) (other : StageModel κ) (r : ℕ) (hw : (s.sets r).windows = []) :
    s.adoptSet other r = s := by
  simp [adoptSet, hw]

/-- Another model of the same process: its sets are other objects, its windows other windows. -/
structure Apart (s : Stage κ) (other : StageModel κ) : Prop where
  /-- Ownership is a partition in the other model too. -/
  owned : Owned ⟨s.toHeap, other⟩
  /-- The two models share no `StageSet` object. -/
  refs : ∀ r ∈ s.refs, r ∉ (⟨s.toHeap, other⟩ : Stage κ).refs
  /-- The two models share no window. -/
  keys : ∀ k, s.owner k = none ∨ other.owner k = none

/-- The state after the second loop of `adopt`: sets that are not ours, with windows that are
not ours, have been taken over, the empty ones left out. -/
structure Adopted (t t' : Stage κ) (other : StageModel κ) (rs : List ℕ) : Prop where
  owned : t'.Owned
  toHeap : t'.toHeap = t.toHeap
  active : t'.active = t.active
  inactive : t'.inactive = t.inactive ++ rs.filter fun r => !(t.sets r).windows.isEmpty
  owner_iff : ∀ k r, t'.owner k = some r ↔
    t.owner k = some r ∨ r ∈ rs ∧ k ∈ (t.sets r).windows
  hidden_iff : ∀ k, k ∈ t'.hidden ↔
    k ∈ t.hidden ∨ k ∈ other.hidden ∧ ∃ r ∈ rs, k ∈ (t.sets r).windows
  minimized_iff : ∀ k, k ∈ t'.userMinimized ↔
    k ∈ t.userMinimized ∨ k ∈ other.userMinimized ∧ ∃ r ∈ rs, k ∈ (t.sets r).windows

/-- One round of the loop, for a set that is not empty. -/
theorem Owned.adoptSet (h : s.Owned) (other : StageModel κ) (hw : (s.sets r).windows ≠ [])
    (hr : r ∉ s.refs) (hlt : r < s.nextRef) (hnd : (s.sets r).windows.Nodup)
    (hkeys : ∀ k ∈ (s.sets r).windows, s.owner k = none) :
    (s.adoptSet other r).Owned := by
  rw [adoptSet_eq s other r hw]
  have hmem : ∀ q, q ∈ s.active.toList ++ (s.inactive ++ [r]) ↔ q ∈ s.refs ∨ q = r := by
    intro q
    simp only [Stage.refs, List.mem_append, List.mem_singleton, or_assoc]
  refine ⟨?_, ?_, ?_, ?_⟩
  · change (s.active.toList ++ (s.inactive ++ [r])).Nodup
    rw [← List.append_assoc]
    exact h.nodup.append (by simp) (by simpa [Stage.refs] using hr)
  · intro q hq
    rcases (hmem q).mp hq with hq | rfl
    · exact h.fresh q hq
    · exact hlt
  · intro q hq
    rcases (hmem q).mp hq with hq | rfl
    · exact h.windows_nodup q hq
    · exact hnd
  · intro k q
    have h1 := h.owner_iff k q
    have h2 := hkeys k
    change (if k ∈ (s.sets r).windows then some r else s.owner k) = some q ↔
      q ∈ s.active.toList ++ (s.inactive ++ [r]) ∧ k ∈ (s.sets q).windows
    rw [hmem]
    grind

theorem adopted_foldl (other : StageModel κ) (rs : List ℕ) (t : Stage κ) (ht : t.Owned)
    (hrs : rs.Nodup)
    (hnew : ∀ r ∈ rs, r ∉ t.refs ∧ r < t.nextRef ∧ (t.sets r).windows.Nodup)
    (hkeys : ∀ r ∈ rs, ∀ k ∈ (t.sets r).windows, t.owner k = none)
    (hdisj : ∀ r ∈ rs, ∀ q ∈ rs, ∀ k ∈ (t.sets r).windows, k ∈ (t.sets q).windows → r = q) :
    Adopted t (rs.foldl (fun t r => t.adoptSet other r) t) other rs := by
  induction rs generalizing t with
  | nil => exact ⟨ht, rfl, rfl, by simp, by simp, by simp, by simp⟩
  | cons r rs ih =>
    obtain ⟨hr, hrs⟩ := List.nodup_cons.mp hrs
    rw [List.foldl_cons]
    by_cases hw : (t.sets r).windows = []
    · rw [adoptSet_empty t other r hw]
      have hi :=
        ih t ht hrs (fun q hq => hnew q (by simp [hq])) (fun q hq => hkeys q (by simp [hq]))
        fun q hq q' hq' => hdisj q (by simp [hq]) q' (by simp [hq'])
      refine ⟨hi.owned, hi.toHeap, hi.active, by simp [hi.inactive, hw], fun k q => ?_, fun k => ?_,
        fun k => ?_⟩
      · rw [hi.owner_iff]; grind
      · rw [hi.hidden_iff]; simp [hw]
      · rw [hi.minimized_iff]; simp [hw]
    · obtain ⟨hn1, hn2, hn3⟩ := hnew r (by simp)
      have hown := ht.adoptSet other hw hn1 hn2 hn3 (hkeys r (by simp))
      rw [adoptSet_eq t other r hw] at hown ⊢
      have hi := ih _ hown hrs (fun q hq => ?_) (fun q hq k hk => ?_)
        fun q hq q' hq' => hdisj q (by simp [hq]) q' (by simp [hq'])
      · refine ⟨hi.owned, hi.toHeap, hi.active, ?_, fun k q => ?_, fun k => ?_, fun k => ?_⟩
        · rw [hi.inactive]; simp [hw]
        · rw [hi.owner_iff]
          have h2 := hkeys r (by simp) k
          grind
        · rw [hi.hidden_iff]
          simp only [Finset.mem_union, Finset.mem_filter, List.mem_toFinset, List.mem_cons,
            exists_eq_or_imp]
          tauto
        · rw [hi.minimized_iff]
          simp only [Finset.mem_union, Finset.mem_filter, List.mem_toFinset, List.mem_cons,
            exists_eq_or_imp]
          tauto
      · obtain ⟨hq1, hq2, hq3⟩ := hnew q (by simp [hq])
        refine ⟨fun hm => ?_, hq2, hq3⟩
        change q ∈ t.active.toList ++ (t.inactive ++ [r]) at hm
        rw [← List.append_assoc, List.mem_append, List.mem_singleton] at hm
        rcases hm with hm | rfl
        · exact hq1 hm
        · exact hr hq
      · have hne : k ∉ (t.sets r).windows := fun hk' =>
          hr (hdisj r (by simp) q (by simp [hq]) k hk' hk ▸ hq)
        have := hkeys q (by simp [hq]) k hk
        simpa [hne] using this

/-- What the first loop of `adopt` does, with the other model apart. -/
structure AdoptedActive (s t : Stage κ) (other : StageModel κ) : Prop where
  owned : t.Owned
  inactive : t.inactive = s.inactive
  nextRef : s.nextRef ≤ t.nextRef
  active : t.active = s.active ∨ t.active = some s.nextRef ∧ s.active = none
  /-- The inactive sets of the other model are untouched, and not ours yet. -/
  others : ∀ r ∈ other.inactive, t.sets r = s.sets r ∧ r ∉ t.refs
  owner : ∀ k, t.owner k =
    if other.owner k ≠ none ∧ other.owner k = other.active then t.active else s.owner k
  active_some : ∀ k, other.owner k ≠ none → other.owner k = other.active → t.active ≠ none
  hidden : t.hidden = s.hidden
  minimized_iff : ∀ k, k ∈ t.userMinimized ↔ k ∈ s.userMinimized ∨
    k ∈ other.userMinimized ∧ other.owner k ≠ none ∧ other.owner k = other.active

theorem Apart.adoptActive {other : StageModel κ} (h : s.Owned) (ha : s.Apart other) :
    AdoptedActive s (s.adoptActive other) other := by
  have ho := ha.owned
  have hrefs : ∀ r ∈ other.inactive, r ∈ (⟨s.toHeap, other⟩ : Stage κ).refs := fun r hr =>
    mem_refs.mpr (Or.inr hr)
  have hactive : ∀ oa, other.active = some oa → ∀ k, k ∈ (s.sets oa).windows ↔
      other.owner k ≠ none ∧ other.owner k = other.active := fun oa hoa k => by
    have h1 := ho.owner_iff k oa
    change other.owner k = some oa ↔ _ at h1
    rw [hoa]
    constructor
    · intro hk
      have := h1.mpr ⟨mem_refs.mpr (Or.inl hoa), hk⟩
      simp [this]
    · exact fun hk => (h1.mp hk.2).2
  rcases adoptActive_eq s other with ⟨he, hempty⟩ | ⟨oa, hoa, hw, he⟩
  · have hnone : ∀ k, ¬(other.owner k ≠ none ∧ other.owner k = other.active) := fun k hk => by
      cases hoa : other.active with
      | none => exact hk.1 (hk.2.trans hoa)
      | some oa =>
        have := (hactive oa hoa k).mpr hk
        simp [hempty oa hoa] at this
    rw [he]
    exact ⟨h, rfl, le_rfl, Or.inl rfl, fun r hr => ⟨rfl, fun hm => ha.refs r hm (hrefs r hr)⟩,
      fun k => by rw [if_neg (hnone k)], fun k h1 h2 => absurd ⟨h1, h2⟩ (hnone k), rfl,
      fun k => by have := hnone k; tauto⟩
  · have hkeys : ∀ k ∈ (s.sets oa).windows, s.owner k = none := fun k hk =>
      (ha.keys k).resolve_right ((hactive oa hoa k).mp hk).1
    have hoam : oa ∈ (⟨s.toHeap, other⟩ : Stage κ).refs := mem_refs.mpr (Or.inl hoa)
    have hpush := h.ensureActive.pushAll (r := s.ensureActive.2)
      (mem_refs.mpr (Or.inl (ensureActive_active s))) (ho.windows_nodup oa hoam)
      (fun k hk => by rw [ensureActive_owner]; exact hkeys k hk)
    have hact := ensureActive_active s
    have hcases := ensureActive_cases s
    rw [he]
    refine ⟨hpush.flags _ _, ensureActive_inactive s, ensureActive_nextRef s, ?_, ?_, ?_, ?_,
      ensureActive_hidden s, ?_⟩
    · change s.ensureActive.1.active = _ ∨ s.ensureActive.1.active = _ ∧ _
      rcases hcases with ⟨h1, -⟩ | ⟨h1, h2, -⟩
      · exact Or.inl (hact.trans h1.symm)
      · exact Or.inr ⟨by rw [hact, h2], h1⟩
    · intro r hr
      have hlt : r < s.nextRef := ho.fresh r (hrefs r hr)
      have hnr : r ∉ s.refs := fun hm => ha.refs r hm (hrefs r hr)
      have hna : r ≠ s.ensureActive.2 := by
        rcases hcases with ⟨h1, -⟩ | ⟨-, h2, -⟩
        · exact fun hra => hnr (mem_refs.mpr (Or.inl (hra ▸ h1)))
        · omega
      refine ⟨?_, fun hm => hnr ((ensureActive_refs s hlt).mp hm)⟩
      change Function.update s.ensureActive.1.sets s.ensureActive.2 _ r = s.sets r
      rw [Function.update_of_ne hna, ensureActive_sets s hlt]
    · intro k
      change (if k ∈ (s.sets oa).windows then some s.ensureActive.2 else s.ensureActive.1.owner k) =
        if other.owner k ≠ none ∧ other.owner k = other.active then s.ensureActive.1.active
        else s.owner k
      rw [hact, ensureActive_owner]
      simp only [hactive oa hoa]
    · intro k _ _
      change s.ensureActive.1.active ≠ none
      rw [hact]
      exact Option.some_ne_none _
    · intro k
      change k ∈ s.ensureActive.1.userMinimized ∪ _ ↔ _
      rw [ensureActive_userMinimized, Finset.mem_union, Finset.mem_filter, List.mem_toFinset,
        hactive oa hoa]
      tauto

/-- **`adopt`**, for a model that is apart. -/
theorem Apart.adopt {other : StageModel κ} (h : s.Owned) (ha : s.Apart other) :
    AdoptedActive s (s.adoptActive other) other ∧
      Adopted (s.adoptActive other) (s.adopt other).1 other other.inactive := by
  have ht := ha.adoptActive h
  have ho := ha.owned
  have hnd : other.inactive.Nodup := (List.nodup_append.mp ho.nodup).2.1
  have hrefs : ∀ r ∈ other.inactive, r ∈ (⟨s.toHeap, other⟩ : Stage κ).refs := fun r hr =>
    mem_refs.mpr (Or.inr hr)
  have howner : ∀ r ∈ other.inactive, ∀ k ∈ (s.sets r).windows, other.owner k = some r :=
    fun r hr k hk => (ho.owner_iff k r).mpr ⟨hrefs r hr, hk⟩
  have hne : ∀ r ∈ other.inactive, other.active ≠ some r := fun r hr he =>
    (List.nodup_append.mp ho.nodup).2.2 r (by simp [he]) r hr rfl
  refine ⟨ht, adopted_foldl other other.inactive _ ht.owned hnd ?_ ?_ ?_⟩
  · intro r hr
    obtain ⟨hset, hmem⟩ := ht.others r hr
    refine ⟨hmem, lt_of_lt_of_le (ho.fresh r (hrefs r hr)) ht.nextRef, ?_⟩
    rw [hset]
    exact ho.windows_nodup r (hrefs r hr)
  · intro r hr k hk
    rw [(ht.others r hr).1] at hk
    have hk' := howner r hr k hk
    rw [ht.owner, if_neg (by rw [hk']; exact fun hc => hne r hr hc.2.symm)]
    exact (ha.keys k).resolve_right (by simp [hk'])
  · intro r hr q hq k hk hk'
    rw [(ht.others r hr).1] at hk
    rw [(ht.others q hq).1] at hk'
    have := (howner r hr k hk).symm.trans (howner q hq k hk')
    simpa using this

theorem Apart.noEmpty_adopt {other : StageModel κ} (h : s.Owned) (ha : s.Apart other)
    (hs : s.NoEmpty) : (s.adopt other).1.NoEmpty := by
  obtain ⟨h1, h2⟩ := ha.adopt h
  have hsets : ∀ r ∈ s.inactive, ((s.adoptActive other).sets r).windows ≠ [] := by
    intro r hr
    rcases adoptActive_eq s other with ⟨he, -⟩ | ⟨oa, -, -, he⟩
    · rw [he]; exact hs r hr
    · rw [he]
      change ((s.ensureActive.1.pushAll s.ensureActive.2 _).sets r).windows ≠ []
      have hlt := h.fresh r (mem_refs.mpr (Or.inr hr))
      rw [windows_pushAll, ensureActive_sets s hlt]
      split
      · simp [hs r hr]
      · exact hs r hr
  intro r hr
  rw [h2.inactive, List.mem_append, h1.inactive] at hr
  rw [h2.toHeap]
  rcases hr with hr | hr
  · exact hsets r hr
  · simpa using (List.mem_filter.mp hr).2

end Stage

end SingularityShell
