import SingularityShell.Lib.Lists
import SingularityShell.Stage.Model
import Mathlib.Data.List.Nodup
import Mathlib.Data.List.Dedup
import Mathlib.Data.Finset.Union

/-!
# Ownership in a `StageModel` is a partition
-/

namespace SingularityShell

namespace Stage

variable {κ : Type*} {s s' : Stage κ} {r : ℕ} {k : κ}

/-- Every window is in one set, the one `_owner` names, and once. -/
structure Owned (s : Stage κ) : Prop where
  /-- No set is listed twice, as the active and an inactive one or as two inactive ones. -/
  nodup : s.refs.Nodup
  /-- Every set has been allocated. -/
  fresh : ∀ r ∈ s.refs, r < s.nextRef
  /-- A set lists no window twice. -/
  windows_nodup : ∀ r ∈ s.refs, (s.sets r).windows.Nodup
  /-- `_owner` and the lists agree. -/
  owner_iff : ∀ k r, s.owner k = some r ↔ r ∈ s.refs ∧ k ∈ (s.sets r).windows

theorem mem_refs : r ∈ s.refs ↔ s.active = some r ∨ r ∈ s.inactive := by
  simp [refs]

theorem refs_active {a : ℕ} (h : s.active = some a) : s.refs = a :: s.inactive := by
  simp [refs, h]

theorem refs_none (h : s.active = none) : s.refs = s.inactive := by
  simp [refs, h]

/-- Sets may be listed in another order, and empty ones dropped. -/
theorem Owned.shuffle (h : s.Owned) (hn : s'.refs.Nodup) (hsub : ∀ r ∈ s'.refs, r ∈ s.refs)
    (hkeep : ∀ r ∈ s.refs, (s.sets r).windows ≠ [] → r ∈ s'.refs) (hsets : s'.sets = s.sets)
    (howner : s'.owner = s.owner) (hnext : s'.nextRef = s.nextRef) : s'.Owned where
  nodup := hn
  fresh r hr := hnext ▸ h.fresh r (hsub r hr)
  windows_nodup r hr := hsets ▸ h.windows_nodup r (hsub r hr)
  owner_iff k r := by
    rw [howner, hsets, h.owner_iff]
    refine ⟨fun ⟨hr, hk⟩ => ⟨hkeep r hr (List.ne_nil_of_mem hk), hk⟩,
      fun ⟨hr, hk⟩ => ⟨hsub r hr, hk⟩⟩

/-- A new, empty set joins the list. -/
theorem Owned.insertNew (h : s.Owned) (id : UInt32) (hn : s'.refs.Nodup)
    (hmem : ∀ r, r ∈ s'.refs ↔ r = s.nextRef ∨ r ∈ s.refs)
    (hsets : s'.sets = Function.update s.sets s.nextRef ⟨id, []⟩)
    (howner : s'.owner = s.owner) (hnext : s'.nextRef = s.nextRef + 1) : s'.Owned where
  nodup := hn
  fresh r hr := by
    rcases (hmem r).mp hr with rfl | hr
    · omega
    · have := h.fresh r hr; omega
  windows_nodup r hr := by
    rw [hsets]
    by_cases he : r = s.nextRef
    · simp [he]
    · rw [Function.update_of_ne he]
      exact h.windows_nodup r (((hmem r).mp hr).resolve_left he)
  owner_iff k r := by
    rw [howner, hsets, h.owner_iff, hmem]
    by_cases he : r = s.nextRef
    · subst he
      have : s.nextRef ∉ s.refs := fun hr => lt_irrefl _ (h.fresh _ hr)
      simp [this]
    · simp [he]

theorem Owned.nextRef_not_mem (h : s.Owned) : s.nextRef ∉ s.refs :=
  fun hr => lt_irrefl _ (h.fresh _ hr)

theorem Owned.ensureActive (h : s.Owned) : s.ensureActive.1.Owned := by
  unfold Stage.ensureActive
  split
  · exact h
  · next ha =>
    have hr := h.nextRef_not_mem
    rw [refs_none ha] at hr
    refine h.insertNew s.nextId ?_ ?_ rfl rfl rfl
    · rw [refs_active rfl, List.nodup_cons]
      exact ⟨hr, refs_none ha ▸ h.nodup⟩
    · intro r
      rw [refs_active rfl, refs_none ha, List.mem_cons]
      rfl

theorem ensureActive_active (s : Stage κ) :
    s.ensureActive.1.active = some s.ensureActive.2 := by
  unfold Stage.ensureActive
  split <;> simp_all

theorem ensureActive_cases (s : Stage κ) :
    s.active = some s.ensureActive.2 ∧ s.ensureActive.1 = s ∨
    s.active = none ∧ s.ensureActive.2 = s.nextRef ∧
      s.ensureActive.1 = { s with
        nextId := s.nextId + 1
        nextRef := s.nextRef + 1
        sets := Function.update s.sets s.nextRef ⟨s.nextId, []⟩
        active := some s.nextRef } := by
  unfold Stage.ensureActive
  split
  · next a ha => exact Or.inl ⟨ha, rfl⟩
  · next ha => exact Or.inr ⟨ha, rfl, rfl⟩

/-- What `ensureActive` does to sets that have been allocated: nothing. -/
theorem ensureActive_sets (s : Stage κ) {r : ℕ} (hr : r < s.nextRef) :
    s.ensureActive.1.sets r = s.sets r := by
  rcases ensureActive_cases s with ⟨-, h⟩ | ⟨-, -, h⟩
  · rw [h]
  · rw [h]
    exact Function.update_of_ne (by omega) _ _

theorem ensureActive_refs (s : Stage κ) {r : ℕ} (hr : r < s.nextRef) :
    r ∈ s.ensureActive.1.refs ↔ r ∈ s.refs := by
  rcases ensureActive_cases s with ⟨-, h⟩ | ⟨ha, -, h⟩
  · rw [h]
  · rw [h, refs_active rfl, refs_none ha, List.mem_cons]
    exact or_iff_right (by omega)

@[simp] theorem ensureActive_owner (s : Stage κ) : s.ensureActive.1.owner = s.owner := by
  rcases ensureActive_cases s with ⟨-, h⟩ | ⟨-, -, h⟩ <;> rw [h]

@[simp] theorem ensureActive_hidden (s : Stage κ) : s.ensureActive.1.hidden = s.hidden := by
  rcases ensureActive_cases s with ⟨-, h⟩ | ⟨-, -, h⟩ <;> rw [h]

@[simp] theorem ensureActive_userMinimized (s : Stage κ) :
    s.ensureActive.1.userMinimized = s.userMinimized := by
  rcases ensureActive_cases s with ⟨-, h⟩ | ⟨-, -, h⟩ <;> rw [h]

@[simp] theorem ensureActive_inactive (s : Stage κ) :
    s.ensureActive.1.inactive = s.inactive := by
  rcases ensureActive_cases s with ⟨-, h⟩ | ⟨-, -, h⟩ <;> rw [h]

theorem ensureActive_nextRef (s : Stage κ) : s.nextRef ≤ s.ensureActive.1.nextRef := by
  rcases ensureActive_cases s with ⟨-, h⟩ | ⟨-, -, h⟩ <;> rw [h]
  exact Nat.le_succ _

theorem Owned.not_mem_of_owner_none (h : s.Owned) (hr : r ∈ s.refs) (hk : s.owner k = none) :
    k ∉ (s.sets r).windows := fun hm => by
  have := (h.owner_iff k r).mpr ⟨hr, hm⟩
  simp [hk] at this

/-- The flags play no part in ownership. -/
theorem Owned.flags (h : s.Owned) (hidden userMinimized : Finset κ) :
    Owned { s with hidden := hidden, userMinimized := userMinimized } :=
  ⟨h.nodup, h.fresh, h.windows_nodup, h.owner_iff⟩

theorem Owned.reserveId (h : s.Owned) (id : UInt32) : (s.reserveId id).Owned := by
  unfold Stage.reserveId
  split
  · exact ⟨h.nodup, h.fresh, h.windows_nodup, h.owner_iff⟩
  · exact h

theorem findSet_mem {id : UInt32} (h : s.findSet id = some r) :
    r ∈ s.refs ∧ (s.sets r).id = id := by
  have h' := List.find?_some h
  exact ⟨List.mem_of_find?_eq_some h, by simpa using h'⟩

theorem Owned.findOrAdd (h : s.Owned) (id : UInt32) :
    (s.findOrAdd id).1.Owned ∧ (s.findOrAdd id).2 ∈ (s.findOrAdd id).1.refs ∧
      (s.findOrAdd id).1.owner = s.owner := by
  unfold Stage.findOrAdd
  split
  · next r hr => exact ⟨h, (findSet_mem hr).1, rfl⟩
  · have hr := h.nextRef_not_mem
    have hmem : ∀ q, q ∈ s.active.toList ++ (s.inactive ++ [s.nextRef]) ↔
        q = s.nextRef ∨ q ∈ s.refs := by
      intro q
      simp only [refs, List.mem_append, List.mem_singleton]
      grind
    refine ⟨h.insertNew id ?_ hmem rfl rfl rfl, ?_, rfl⟩
    · change (s.active.toList ++ (s.inactive ++ [s.nextRef])).Nodup
      rw [← List.append_assoc]
      exact h.nodup.append (by simp) (by simpa [refs] using hr)
    · exact (hmem _).mpr (Or.inl rfl)

theorem Owned.mem_allWindows (h : s.Owned) : k ∈ s.allWindows ↔ s.owner k ≠ none := by
  constructor
  · intro hk hn
    obtain ⟨r, hr, hkr⟩ := List.mem_flatMap.mp hk
    exact h.not_mem_of_owner_none hr hn hkr
  · intro hk
    obtain ⟨r, hr⟩ := Option.ne_none_iff_exists'.mp hk
    obtain ⟨h1, h2⟩ := (h.owner_iff k r).mp hr
    exact List.mem_flatMap.mpr ⟨r, h1, h2⟩

/-- A window is in one set only. -/
theorem Owned.not_mem_of_ne (h : s.Owned) {r q : ℕ} (hr : r ∈ s.refs) (hq : q ∈ s.refs)
    (hne : r ≠ q) (hk : k ∈ (s.sets r).windows) : k ∉ (s.sets q).windows := fun hk' => by
  have h1 := (h.owner_iff k r).mpr ⟨hr, hk⟩
  have h2 := (h.owner_iff k q).mpr ⟨hq, hk'⟩
  exact hne (Option.some_inj.mp (h1.symm.trans h2))

section
variable [DecidableEq κ]

/-! ### One window joins or leaves a set -/

@[simp] theorem refs_pushWindow : (s.pushWindow r k).refs = s.refs := rfl

@[simp] theorem owner_pushWindow (j : κ) :
    (s.pushWindow r k).owner j = if j = k then some r else s.owner j := by
  simp [pushWindow, Function.update_apply]

@[simp] theorem windows_pushWindow (q : ℕ) : ((s.pushWindow r k).sets q).windows =
    if q = r then (s.sets q).windows ++ [k] else (s.sets q).windows := by
  by_cases h : q = r
  · subst h; simp [pushWindow]
  · simp [pushWindow, h]

@[simp] theorem id_pushWindow (q : ℕ) : ((s.pushWindow r k).sets q).id = (s.sets q).id := by
  by_cases h : q = r
  · subst h; simp [pushWindow]
  · simp [pushWindow, h]

@[simp] theorem refs_dropWindow : (s.dropWindow r k).refs = s.refs := rfl

@[simp] theorem owner_dropWindow : (s.dropWindow r k).owner = s.owner := rfl

@[simp] theorem windows_dropWindow (q : ℕ) : ((s.dropWindow r k).sets q).windows =
    if q = r then (s.sets q).windows.erase k else (s.sets q).windows := by
  by_cases h : q = r
  · subst h; simp [dropWindow]
  · simp [dropWindow, h]

@[simp] theorem id_dropWindow (q : ℕ) : ((s.dropWindow r k).sets q).id = (s.sets q).id := by
  by_cases h : q = r
  · subst h; simp [dropWindow]
  · simp [dropWindow, h]

theorem Owned.pushWindow (h : s.Owned) (hr : r ∈ s.refs) (hk : s.owner k = none) :
    (s.pushWindow r k).Owned where
  nodup := h.nodup
  fresh := h.fresh
  windows_nodup q hq := by
    have hkr := h.not_mem_of_owner_none hr hk
    have hq' := h.windows_nodup q hq
    rw [windows_pushWindow]
    split
    · next he => subst he; exact hq'.append (by simp) (by simpa using hkr)
    · exact hq'
  owner_iff j q := by
    have := h.owner_iff j q
    rw [owner_pushWindow, windows_pushWindow, refs_pushWindow]
    grind

/-- A window changes sets. -/
theorem Owned.rehome {source target : ℕ} (h : s.Owned) (hk : s.owner k = some source)
    (ht : target ∈ s.refs) (hne : target ≠ source) :
    ((s.dropWindow source k).pushWindow target k).Owned where
  nodup := h.nodup
  fresh := h.fresh
  windows_nodup q hq := by
    have hq' := h.windows_nodup q hq
    have hkt : k ∉ (s.sets target).windows := fun hm => by
      have := (h.owner_iff k target).mpr ⟨ht, hm⟩
      simp_all
    rw [windows_pushWindow, windows_dropWindow]
    split
    · next he => subst he; rw [if_neg hne]; exact hq'.append (by simp) (by simpa using hkt)
    · split
      · exact hq'.erase k
      · exact hq'
  owner_iff j q := by
    have hjq := h.owner_iff j q
    have hks := h.owner_iff k q
    rw [owner_pushWindow, owner_dropWindow, windows_pushWindow, windows_dropWindow,
      refs_pushWindow, refs_dropWindow]
    by_cases hqs : q = source
    · subst hqs
      rw [if_neg hne.symm, if_pos rfl]
      by_cases hqr : q ∈ s.refs
      · rw [(h.windows_nodup q hqr).mem_erase_iff]
        grind
      · grind
    · grind

/-- A window leaves its set for good. -/
theorem Owned.forget (h : s.Owned) (hk : s.owner k = some r) :
    Owned { s.dropWindow r k with owner := Function.update s.owner k none } where
  nodup := h.nodup
  fresh := h.fresh
  windows_nodup q hq := by
    have hq' := h.windows_nodup q hq
    have := windows_dropWindow (s := s) (r := r) (k := k) q
    change ((s.dropWindow r k).sets q).windows.Nodup
    rw [this]
    split
    · exact hq'.erase k
    · exact hq'
  owner_iff j q := by
    have hjq := h.owner_iff j q
    have hks := h.owner_iff k q
    change Function.update s.owner k none j = some q ↔
      q ∈ s.refs ∧ j ∈ ((s.dropWindow r k).sets q).windows
    rw [windows_dropWindow, Function.update_apply]
    by_cases hqr : q = r
    · subst hqr
      have hr := ((h.owner_iff k q).mp hk).1
      rw [if_pos rfl, (h.windows_nodup q hr).mem_erase_iff]
      grind
    · grind

/-! ### Many windows join one set -/

/-- The state after every key of a list has joined set `r`. -/
def pushAll (s : Stage κ) (r : ℕ) (keys : List κ) : Stage κ :=
  { s with
    sets := Function.update s.sets r { s.sets r with windows := (s.sets r).windows ++ keys }
    owner := fun k => if k ∈ keys then some r else s.owner k }

theorem foldl_pushWindow (s : Stage κ) (r : ℕ) (keys : List κ) :
    keys.foldl (fun t key => t.pushWindow r key) s = s.pushAll r keys := by
  induction keys generalizing s with
  | nil => simp [pushAll]
  | cons key keys ih =>
    rw [List.foldl_cons, ih]
    have howner : (fun k => if k ∈ keys then some r else (s.pushWindow r key).owner k) =
        fun k => if k ∈ key :: keys then some r else s.owner k := by
      funext k
      by_cases h : k ∈ keys <;> simp [h]
    rw [pushAll, howner]
    simp [pushAll, pushWindow]

@[simp] theorem windows_pushAll (s : Stage κ) (r : ℕ) (keys : List κ) (q : ℕ) :
    ((s.pushAll r keys).sets q).windows =
      if q = r then (s.sets q).windows ++ keys else (s.sets q).windows := by
  by_cases h : q = r
  · subst h; simp [pushAll]
  · simp [pushAll, h]

@[simp] theorem id_pushAll (s : Stage κ) (r : ℕ) (keys : List κ) (q : ℕ) :
    ((s.pushAll r keys).sets q).id = (s.sets q).id := by
  by_cases h : q = r
  · subst h; simp [pushAll]
  · simp [pushAll, h]

theorem Owned.pushAll (h : s.Owned) (hr : r ∈ s.refs) {keys : List κ} (hn : keys.Nodup)
    (hk : ∀ k ∈ keys, s.owner k = none) : (s.pushAll r keys).Owned := by
  rw [← foldl_pushWindow]
  induction keys generalizing s with
  | nil => exact h
  | cons key keys ih =>
    obtain ⟨hkey, hn⟩ := List.nodup_cons.mp hn
    refine ih (h.pushWindow hr (hk key (by simp))) hr hn fun k hkm => ?_
    have hne : k ≠ key := fun he => hkey (he ▸ hkm)
    simpa [hne] using hk k (by simp [hkm])

/-- The active set is emptied into an inactive one, which becomes active. -/
theorem Owned.mergeActive {a w : ℕ} (h : s.Owned) (ha : s.active = some a) (hw : w ∈ s.inactive) :
    Owned { s.pushAll w (s.sets a).windows with
      inactive := s.inactive.erase w, active := some w } := by
  have hrefs := refs_active ha
  have hnd : a ∉ s.inactive ∧ s.inactive.Nodup := by
    have := h.nodup
    rwa [hrefs, List.nodup_cons] at this
  have hwa : w ≠ a := fun he => hnd.1 (he ▸ hw)
  have hmem : ∀ q, q ∈ w :: s.inactive.erase w ↔ q ∈ s.inactive := fun q => by
    rw [List.mem_cons, hnd.2.mem_erase_iff]
    grind
  have hdisj : ∀ k ∈ (s.sets w).windows, k ∉ (s.sets a).windows := fun k hk hk' => by
    have h1 := (h.owner_iff k w).mpr ⟨by simp [hrefs, hw], hk⟩
    have h2 := (h.owner_iff k a).mpr ⟨by simp [hrefs], hk'⟩
    simp_all
  refine ⟨?_, ?_, ?_, ?_⟩
  · rw [refs_active rfl, List.nodup_cons]
    exact ⟨fun hm => (hnd.2.mem_erase_iff.mp hm).1 rfl, hnd.2.erase w⟩
  · intro q hq
    rw [refs_active rfl, hmem] at hq
    exact h.fresh q (by simp [hrefs, hq])
  · intro q hq
    rw [refs_active rfl, hmem] at hq
    have hq' := h.windows_nodup q (by simp [hrefs, hq])
    change (((s.pushAll w _).sets q).windows).Nodup
    rw [windows_pushAll]
    split
    · next he =>
      subst he
      exact hq'.append (h.windows_nodup a (by simp [hrefs])) (by
        intro k hk hk'; exact hdisj k hk hk')
    · exact hq'
  · intro k q
    rw [refs_active rfl, hmem]
    change (if k ∈ (s.sets a).windows then some w else s.owner k) = some q ↔
      q ∈ s.inactive ∧ k ∈ ((s.pushAll w _).sets q).windows
    rw [windows_pushAll]
    have h1 := h.owner_iff k q
    have h2 := h.owner_iff k a
    rw [hrefs] at h1 h2
    simp only [List.mem_cons] at h1 h2
    by_cases hka : k ∈ (s.sets a).windows
    · have hoa : s.owner k = some a := h2.mpr (by simp [hka])
      rw [if_pos hka]
      by_cases hqw : q = w
      · subst hqw; simp [hw, hka]
      · grind
    · rw [if_neg hka]
      by_cases hqw : q = w <;> grind

/-! ### The methods keep the partition -/

theorem Owned.flagRestored (h : s.Owned) (minimized hidden : Bool) :
    (s.flagRestored k minimized hidden).Owned := by
  unfold Stage.flagRestored
  split
  · exact h.flags _ _
  · split
    · exact h.flags _ _
    · exact h

theorem Owned.addWindow (h : s.Owned) (k : κ) : (s.addWindow k).Owned := by
  unfold Stage.addWindow
  split
  · exact h
  · next hk =>
    have hown : s.ensureActive.1.owner = s.owner := by
      unfold Stage.ensureActive; split <;> rfl
    refine h.ensureActive.pushWindow ?_ ?_
    · exact mem_refs.mpr (Or.inl (ensureActive_active s))
    · rw [hown]; simpa using hk

theorem Owned.restoreWindow (h : s.Owned) (k : κ) (setId : UInt32) (minimized hidden : Bool) :
    (s.restoreWindow k setId minimized hidden).Owned := by
  unfold Stage.restoreWindow
  split
  · exact h
  · next hk =>
    split
    · exact (h.addWindow k).flagRestored _ _
    · have hf := (h.reserveId setId).findOrAdd setId
      have hres : (s.reserveId setId).owner = s.owner := by
        unfold Stage.reserveId; split <;> rfl
      refine (hf.1.pushWindow hf.2.1 ?_).flagRestored _ _
      rw [hf.2.2, hres]
      simpa using hk

theorem wantedSet_mem {activeId : UInt32} (h : s.wantedSet activeId = some r) : r ∈ s.refs := by
  unfold wantedSet at h
  split at h
  · next q hq =>
    split at hq
    · obtain rfl : q = r := by simpa using h
      exact (findSet_mem hq).1
    · simp at hq
  · rw [Option.or_eq_some_iff] at h
    refine mem_refs.mpr (Or.inr ?_)
    rcases h with h | ⟨-, h⟩
    · exact List.mem_of_find?_eq_some h
    · exact List.mem_of_head? h

theorem Owned.mergeActiveInto (h : s.Owned) {w : ℕ} (hw : w ∈ s.inactive) :
    (s.mergeActiveInto w).Owned := by
  unfold Stage.mergeActiveInto
  split
  · next ha =>
    have hrefs := refs_none ha
    have hnd := hrefs ▸ h.nodup
    refine h.shuffle ?_ ?_ ?_ rfl rfl rfl
    · rw [refs_active rfl, List.nodup_cons]
      exact ⟨fun hm => (hnd.mem_erase_iff.mp hm).1 rfl, hnd.erase w⟩
    · intro q hq
      rw [refs_active rfl, List.mem_cons, hnd.mem_erase_iff] at hq
      rw [hrefs]
      grind
    · intro q hq _
      rw [refs_active rfl, List.mem_cons, hnd.mem_erase_iff]
      rw [hrefs] at hq
      grind
  · next a ha =>
    rw [foldl_pushWindow]
    exact h.mergeActive ha hw

theorem Owned.chooseActive (h : s.Owned) (activeId : UInt32) :
    (s.chooseActive activeId).1.Owned := by
  unfold Stage.chooseActive
  refine Owned.ensureActive ?_
  split
  · next w hw =>
    split
    · exact h
    · next hne => exact h.mergeActiveInto ((mem_refs.mp (wantedSet_mem hw)).resolve_left hne)
  · exact h

end

/-! ### The reordering of `restore_finish` -/

/-- The sets the order names, in its order. -/
def namedSets (sets : ℕ → StageSet κ) (order : List UInt32) (inactive : List ℕ) : List ℕ :=
  order.foldl (fun sorted id =>
    inactive.foldl (fun sorted r =>
      if (sets r).id = id ∧ r ∉ sorted then sorted ++ [r] else sorted) sorted) []

theorem namedSets_aux (sets : ℕ → StageSet κ) (order : List UInt32) (inactive acc : List ℕ)
    (hn : acc.Nodup) (hs : ∀ r ∈ acc, r ∈ inactive) :
    (order.foldl (fun sorted id => inactive.foldl (fun sorted r =>
      if (sets r).id = id ∧ r ∉ sorted then sorted ++ [r] else sorted) sorted) acc).Nodup ∧
    ∀ r ∈ order.foldl (fun sorted id => inactive.foldl (fun sorted r =>
      if (sets r).id = id ∧ r ∉ sorted then sorted ++ [r] else sorted) sorted) acc,
      r ∈ inactive := by
  induction order generalizing acc with
  | nil => exact ⟨hn, hs⟩
  | cons id order ih =>
    refine ih _ (Lists.nodup_foldl_append _ _ _ hn) fun r hr => ?_
    rcases (Lists.mem_foldl_append (fun r => (sets r).id = id) inactive acc r).mp hr with h | h
    · exact hs r h
    · exact h.1

theorem sortSets_eq (sets : ℕ → StageSet κ) (order : List UInt32) (inactive : List ℕ) :
    sortSets sets order inactive = inactive.foldl (fun acc r =>
      if True ∧ r ∉ acc then acc ++ [r] else acc) (namedSets sets order inactive) := by
  simp [sortSets, namedSets]

theorem mem_sortSets (sets : ℕ → StageSet κ) (order : List UInt32) (inactive : List ℕ) (r : ℕ) :
    r ∈ sortSets sets order inactive ↔ r ∈ inactive := by
  rw [sortSets_eq, Lists.mem_foldl_append (fun _ => True)]
  have := (namedSets_aux sets order inactive [] List.nodup_nil (by simp)).2 r
  constructor
  · rintro (h | h)
    · exact this h
    · exact h.1
  · exact fun h => Or.inr ⟨h, trivial⟩

theorem nodup_sortSets (sets : ℕ → StageSet κ) (order : List UInt32) (inactive : List ℕ) :
    (sortSets sets order inactive).Nodup := by
  rw [sortSets_eq]
  exact Lists.nodup_foldl_append _ _ _
    (namedSets_aux sets order inactive [] List.nodup_nil (by simp)).1

theorem reorder_eq (s : Stage κ) (order : Option (List UInt32)) :
    ∃ l : List ℕ, s.reorder order = { s with inactive := l } ∧ (∀ r, r ∈ l ↔ r ∈ s.inactive) ∧
      (s.inactive.Nodup → l.Nodup) := by
  unfold reorder
  split
  · exact ⟨_, rfl, fun r => Iff.rfl, id⟩
  · exact ⟨_, rfl, fun r => Iff.rfl, id⟩
  · exact ⟨_, rfl, fun r => mem_sortSets _ _ _ r, fun _ => nodup_sortSets _ _ _⟩

end Stage

end SingularityShell
