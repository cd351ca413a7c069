import SingularityShell.Stage.Refinement

/-!
# A window leaves the active set

What `move_window` does with a window of the active set: it goes to a new set, to the set that has
the id, or nowhere.

## Main results

* `Stage.moveWindow_new`, `Stage.moveWindow_found`, `Stage.moveWindow_active` — the three cases
-/

namespace SingularityShell

namespace Stage

variable {κ : Type*} [DecidableEq κ] {s : Stage κ} {a r : ℕ} {key : κ} {id : UInt32}

/-- The window goes from set `a` to set `r`, and is hidden unless it is out of sight already. -/
def takeAway (s : Stage κ) (a : ℕ) (key : κ) (r : ℕ) : Stage κ × List κ :=
  ((s.dropWindow a key).pushWindow r key).hideKeys [key]

/-- A new set at the front of the inactive ones. -/
def withNewSet (s : Stage κ) : Stage κ :=
  { s.newSet.1 with inactive := s.nextRef :: s.inactive }

section
variable (s a key r)

@[simp] theorem takeAway_active : (s.takeAway a key r).1.active = s.active := rfl

@[simp] theorem takeAway_inactive : (s.takeAway a key r).1.inactive = s.inactive := rfl

@[simp] theorem takeAway_nextRef : (s.takeAway a key r).1.nextRef = s.nextRef := rfl

@[simp] theorem takeAway_nextId : (s.takeAway a key r).1.nextId = s.nextId := rfl

@[simp] theorem takeAway_userMinimized :
    (s.takeAway a key r).1.userMinimized = s.userMinimized := rfl

@[simp] theorem takeAway_owner :
    (s.takeAway a key r).1.owner = Function.update s.owner key (some r) := rfl

@[simp] theorem takeAway_id (q : ℕ) : ((s.takeAway a key r).1.sets q).id = (s.sets q).id :=
  (id_pushWindow q).trans (id_dropWindow q)

theorem takeAway_windows (hr : r ≠ a) :
    ((s.takeAway a key r).1.sets a).windows = (s.sets a).windows.erase key := by
  refine (windows_pushWindow a).trans ?_
  rw [if_neg hr.symm, windows_dropWindow, if_pos rfl]

theorem takeAway_hidden : (s.takeAway a key r).1.hidden =
    if key ∈ s.hidden ∨ key ∈ s.userMinimized then s.hidden else insert key s.hidden := by
  change (hideLoop s.userMinimized s.hidden [key]).1 = _
  rw [hideLoop]
  split_ifs <;> rfl

theorem takeAway_plan : (s.takeAway a key r).2 =
    if key ∈ s.hidden ∨ key ∈ s.userMinimized then [] else [key] := by
  change (hideLoop s.userMinimized s.hidden [key]).2 = _
  rw [hideLoop]
  split_ifs <;> rfl

end

/-- What the window is moved to is another set. -/
theorem moveWindow_eq (hk : s.owner key = some a)
    (hid : ¬ (id ≠ 0 ∧ (s.findSet id = none ∨ s.findSet id = some a)))
    (hr : (s.moveTarget id).2 ≠ a) (hact : (s.moveTarget id).1.active = some a) :
    s.moveWindow key id =
      (((s.moveTarget id).1.takeAway a key (s.moveTarget id).2).1,
        ⟨((s.moveTarget id).1.takeAway a key (s.moveTarget id).2).2, []⟩) := by
  obtain ⟨t, ht⟩ : ∃ t, t = s.moveTarget id := ⟨_, rfl⟩
  obtain ⟨u, hu⟩ : ∃ u, u = (t.1.dropWindow a key).pushWindow t.2 key := ⟨_, rfl⟩
  rw [← ht] at hr hact ⊢
  have hactive : u.active = some a := by
    rw [hu]
    exact hact
  have hflags : u.moveFlags key a t.2 = ((u.hideKeys [key]).1, ⟨(u.hideKeys [key]).2, []⟩) := by
    rw [moveFlags, hactive, if_neg fun he => hr (Option.some_inj.mp he).symm, if_pos rfl]
  have hkeep : (u.hideKeys [key]).1.dropIfEmpty a = (u.hideKeys [key]).1 :=
    if_neg fun hne => hne.1 hactive
  rw [moveWindow, hk]
  dsimp only
  rw [if_neg hid, ← ht, ← hu, hflags, takeAway, ← hu]
  dsimp only
  rw [hkeep]

/-- The id `0` asks for a new set. -/
theorem moveWindow_new (ha : s.active = some a) (hk : s.owner key = some a)
    (hfresh : a < s.nextRef) :
    s.moveWindow key 0 = ((s.withNewSet.takeAway a key s.nextRef).1,
      ⟨(s.withNewSet.takeAway a key s.nextRef).2, []⟩) :=
  moveWindow_eq hk (fun h => h.1 rfl) hfresh.ne' ha

/-- Another set has the id. -/
theorem moveWindow_found (ha : s.active = some a) (hk : s.owner key = some a) (h0 : id ≠ 0)
    (hfind : s.findSet id = some r) (hr : r ≠ a) :
    s.moveWindow key id = ((s.takeAway a key r).1, ⟨(s.takeAway a key r).2, []⟩) := by
  have htarget : s.moveTarget id = (s, r) := by
    rw [moveTarget, if_neg h0, hfind]
  have hid : ¬ (id ≠ 0 ∧ (s.findSet id = none ∨ s.findSet id = some a)) := by
    rw [hfind]
    rintro ⟨-, hnone | hsome⟩
    · exact Option.some_ne_none r hnone
    · exact hr (Option.some_inj.mp hsome)
  have heq := moveWindow_eq hk hid (htarget ▸ hr) (htarget ▸ ha)
  rwa [htarget] at heq

/-- The active set has the id: the window stays. -/
theorem moveWindow_active (ha : s.active = some a) (hk : s.owner key = some a) (h0 : id ≠ 0)
    (hid : (s.sets a).id = id) : s.moveWindow key id = (s, {}) := by
  have hfind : s.findSet id = some a := by
    rw [findSet, refs_active ha, List.find?_cons_of_pos (by simpa using hid)]
  rw [moveWindow, hk]
  dsimp only
  rw [if_pos ⟨h0, Or.inr hfind⟩]

/-- The window leaves the active set, from the state or from the one with a new set, or it
stays. -/
theorem moveWindow_cases (ha : s.active = some a) (hk : s.owner key = some a)
    (hfresh : a < s.nextRef) (id : UInt32) :
    s.moveWindow key id = (s, {}) ∨ ∃ (t : Stage κ) (r : ℕ), t.hidden = s.hidden ∧
      t.userMinimized = s.userMinimized ∧
      s.moveWindow key id = ((t.takeAway a key r).1, ⟨(t.takeAway a key r).2, []⟩) := by
  by_cases h0 : id = 0
  · rw [h0]
    exact Or.inr ⟨s.withNewSet, s.nextRef, rfl, rfl, moveWindow_new ha hk hfresh⟩
  · cases hfind : s.findSet id with
    | none =>
      left
      rw [moveWindow, hk]
      dsimp only
      rw [if_pos ⟨h0, Or.inl hfind⟩]
    | some r =>
      by_cases hr : r = a
      · left
        rw [moveWindow, hk]
        dsimp only
        rw [if_pos ⟨h0, Or.inr (hr ▸ hfind)⟩]
      · exact Or.inr ⟨s, r, rfl, rfl, moveWindow_found ha hk h0 hfind hr⟩

/-- What is hidden then: what was, and what the plan hides, which is the window or nothing. -/
theorem moveWindow_hidden (ha : s.active = some a) (hk : s.owner key = some a)
    (hfresh : a < s.nextRef) (id : UInt32) :
    (∀ k, k ∈ (s.moveWindow key id).1.hidden ↔
      k ∈ s.hidden ∨ k ∈ (s.moveWindow key id).2.hide) ∧
    (s.moveWindow key id).1.userMinimized = s.userMinimized ∧
    ((s.moveWindow key id).2.hide = [] ∨ (s.moveWindow key id).2.hide = [key] ∧
      key ∉ s.hidden ∧ key ∉ s.userMinimized) := by
  rcases moveWindow_cases ha hk hfresh id with hsame | ⟨t, r, hhidden, hmin, hmove⟩
  · rw [hsame]
    exact ⟨fun k => (or_iff_left List.not_mem_nil).symm, rfl, Or.inl rfl⟩
  · rw [hmove]
    dsimp only
    rw [takeAway_hidden, takeAway_plan, takeAway_userMinimized, hhidden, hmin]
    by_cases hout : key ∈ s.hidden ∨ key ∈ s.userMinimized
    · rw [if_pos hout, if_pos hout]
      exact ⟨fun k => (or_iff_left List.not_mem_nil).symm, rfl, Or.inl rfl⟩
    · rw [if_neg hout, if_neg hout]
      refine ⟨fun k => ?_, rfl, Or.inr ⟨rfl, not_or.mp hout⟩⟩
      rw [Finset.mem_insert, List.mem_singleton, or_comm]

/-- Only the window that is moved changes its set. -/
theorem moveWindow_owner_of_ne {k : κ} (hne : k ≠ key) (id : UInt32) :
    (s.moveWindow key id).1.owner k = s.owner k := by
  rcases grouping_moveWindow s key id with hsame | ⟨-, hmove⟩
  · rw [hsame]
  · have howner := congrArg (fun v => Grouping.group v k) hmove
    exact howner.trans (Function.update_of_ne hne _ _)

theorem moveWindow_toActive (key : κ) (id : UInt32) :
    (s.moveWindow key id).1.active = s.active := by
  rcases grouping_moveWindow s key id with hsame | ⟨-, hmove⟩
  · rw [hsame]
  · exact congrArg Grouping.active hmove

end Stage

end SingularityShell
