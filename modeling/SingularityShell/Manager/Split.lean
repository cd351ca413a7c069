import SingularityShell.Lib.Lists
import SingularityShell.Manager.Frames
import SingularityShell.Stage.Leave

/-!
# `split_by_app`: one set for each application

When the stage is turned on and no groups were kept, the windows of a monitor are all in its active
set. The ones of the first window's application stay; each other application gets a set of its own,
which the loop finds again by the id that the set was given.

## Main definitions

* `Manager.apps` — the applications in the order in which the loop meets them
* `Manager.Split` — what the split is for
* `Manager.Found` — the ids by which the sets are found again

## Main results

* `Manager.splitByApp_iff` — when the split does what it is for
-/

namespace SingularityShell

namespace Manager

variable {κ : Type*} [DecidableEq κ]

/-! ### The applications -/

section Apps

variable (appId : κ → String) (lead : String)

/-- The applications other than the first one, in the order in which the loop meets them. -/
def apps (keys : List κ) : List String :=
  keys.foldl (fun seen key =>
    if appId key = lead ∨ appId key ∈ seen then seen else seen ++ [appId key]) []

variable {appId lead} {keys : List κ} {key : κ}

omit [DecidableEq κ] in
theorem apps_concat (keys : List κ) (key : κ) : apps appId lead (keys ++ [key]) =
    if appId key = lead ∨ appId key ∈ apps appId lead keys then apps appId lead keys
    else apps appId lead keys ++ [appId key] := by
  rw [apps, List.foldl_append]
  rfl

omit [DecidableEq κ] in
theorem apps_concat_of_seen (h : appId key = lead ∨ appId key ∈ apps appId lead keys) :
    apps appId lead (keys ++ [key]) = apps appId lead keys := by
  rw [apps_concat, if_pos h]

omit [DecidableEq κ] in
theorem apps_concat_of_new (hlead : appId key ≠ lead) (h : appId key ∉ apps appId lead keys) :
    apps appId lead (keys ++ [key]) = apps appId lead keys ++ [appId key] := by
  rw [apps_concat, if_neg (not_or.mpr ⟨hlead, h⟩)]

omit [DecidableEq κ] in
theorem mem_apps {app : String} :
    app ∈ apps appId lead keys ↔ app ≠ lead ∧ ∃ key ∈ keys, appId key = app := by
  induction keys using List.reverseRecOn with
  | nil => simp [apps]
  | append_singleton keys key ih =>
    rw [apps_concat]
    by_cases hseen : appId key = lead ∨ appId key ∈ apps appId lead keys
    · rw [if_pos hseen, ih]
      refine and_congr_right fun hne => ⟨?_, ?_⟩
      · rintro ⟨k, hk, hkapp⟩
        exact ⟨k, List.mem_append_left _ hk, hkapp⟩
      · rintro ⟨k, hk, rfl⟩
        rcases List.mem_append.mp hk with hk | hk
        · exact ⟨k, hk, rfl⟩
        · obtain rfl := List.mem_singleton.mp hk
          exact (ih.mp (hseen.resolve_left hne)).2
    · rw [if_neg hseen, List.mem_append, ih, List.mem_singleton]
      constructor
      · rintro (⟨hne, k, hk, hkapp⟩ | rfl)
        · exact ⟨hne, k, List.mem_append_left _ hk, hkapp⟩
        · exact ⟨fun hlead => hseen (Or.inl hlead), key,
            List.mem_append_right _ (List.mem_singleton_self key), rfl⟩
      · rintro ⟨hne, k, hk, rfl⟩
        rcases List.mem_append.mp hk with hk | hk
        · exact Or.inl ⟨hne, k, hk, rfl⟩
        · exact Or.inr (congrArg appId (List.mem_singleton.mp hk))

omit [DecidableEq κ] in
theorem length_apps_le (keys : List κ) : (apps appId lead keys).length ≤ keys.length := by
  induction keys using List.reverseRecOn with
  | nil => exact le_refl 0
  | append_singleton keys key ih =>
    rw [apps_concat, List.length_append]
    split_ifs
    · exact ih.trans (Nat.le_add_right _ _)
    · rw [List.length_append]
      exact Nat.add_le_add_right ih 1

omit [DecidableEq κ] in
/-- What follows does not change the place of an application. -/
theorem idxOf_apps_append {app : String} (h : app ∈ apps appId lead keys) (rest : List κ) :
    (apps appId lead (keys ++ rest)).idxOf app = (apps appId lead keys).idxOf app := by
  induction rest using List.reverseRecOn with
  | nil => rw [List.append_nil]
  | append_singleton rest key ih =>
    rw [← List.append_assoc, apps_concat]
    split_ifs
    · exact ih
    · rw [List.idxOf_append_of_mem, ih]
      obtain ⟨hne, k, hk, hkapp⟩ := mem_apps.mp h
      exact mem_apps.mpr ⟨hne, k, List.mem_append_left _ hk, hkapp⟩

omit [DecidableEq κ] in
theorem nodup_apps (keys : List κ) : (apps appId lead keys).Nodup := by
  induction keys using List.reverseRecOn with
  | nil => exact List.nodup_nil
  | append_singleton keys key ih =>
    rw [apps_concat]
    split_ifs with hseen
    · exact ih
    · refine List.nodup_append.mpr ⟨ih, List.nodup_singleton _, ?_⟩
      rintro app happ other hother rfl
      rw [List.mem_singleton.mp hother] at happ
      exact hseen (Or.inr happ)

end Apps

/-! ### What the split is for -/

/-- The id that the counter gives to the set of an application. -/
def newId (s₀ : Stage κ) (seen : List String) (app : String) : UInt32 :=
  s₀.nextId + UInt32.ofNat (seen.idxOf app)

/-- The set of every application that has more than one window to move is found again by its id:
the id is not the one that asks for a new set, nor that of the active set. -/
def Found (appId : κ → String) (s₀ : Stage κ) : Prop :=
  ∀ a first rest, s₀.active = some a → (s₀.sets a).windows = first :: rest →
    ∀ k ∈ first :: rest, ∀ l ∈ first :: rest, k ≠ l → appId k = appId l →
      appId k ≠ appId first →
      newId s₀ (apps appId (appId first) (first :: rest).reverse) (appId k) ≠ 0 ∧
      newId s₀ (apps appId (appId first) (first :: rest).reverse) (appId k) ≠ (s₀.sets a).id

/-- A window of the active set that is of another application than the first one. -/
def Moved (appId : κ → String) (s₀ : Stage κ) (k : κ) : Prop :=
  ∃ a first rest, s₀.active = some a ∧ (s₀.sets a).windows = first :: rest ∧
    k ∈ first :: rest ∧ appId k ≠ appId first

/-- Windows share a set when they have one application, those of the first window's application
stay in the active set, and the others are hidden in inactive sets. -/
structure Split (appId : κ → String) (s₀ s : Stage κ) (hide : List κ) : Prop where
  together : ∀ k l, s₀.owner k ≠ none → s₀.owner l ≠ none →
    (s.owner k = s.owner l ↔ appId k = appId l)
  active : s.active = s₀.active
  stay : ∀ a first rest, s₀.active = some a → (s₀.sets a).windows = first :: rest →
    (s.sets a).windows = (first :: rest).filter fun k => appId k = appId first
  away : ∀ k, Moved appId s₀ k → ∃ r ∈ s.inactive, s.owner k = some r
  nodup : hide.Nodup
  mem_hide : ∀ k, k ∈ hide ↔ Moved appId s₀ k ∧ k ∉ s₀.userMinimized
  hidden : ∀ k, k ∈ s.hidden ↔ k ∈ hide

/-! ### The loop -/

section Loop

variable {d : Desk κ} {c lead : String} {m : Manager κ} {sets : String → Option UInt32}
variable {key : κ} {keys : List κ} {a : ℕ}

/-- The map of the loop after a window has been moved. -/
def remember (sets : String → Option UInt32) (app : String) (id : Option UInt32) :
    String → Option UInt32 :=
  match sets app with
  | some _ => sets
  | none => Function.update sets app id

theorem remember_none {app : String} (h : sets app = none) (id : Option UInt32) :
    remember sets app id = Function.update sets app id := by
  rw [remember, h]

theorem remember_some {app : String} {old : UInt32} (h : sets app = some old)
    (id : Option UInt32) : remember sets app id = sets := by
  rw [remember, h]

theorem splitLoop_lead (h : d.appId key = lead) :
    splitLoop d c lead (key :: keys) m sets = splitLoop d c lead keys m sets := by
  rw [splitLoop, if_pos h]

theorem splitLoop_move (h : d.appId key ≠ lead) {x : Call κ}
    (hx : x = .moveWindow key ((sets (d.appId key)).getD 0)) :
    splitLoop d c lead (key :: keys) m sets =
      ((splitLoop d c lead keys (m.call c x)
          (remember sets (d.appId key) ((m.call c x).ownerId c key))).1,
        (m.planOf c x).hide ++ (splitLoop d c lead keys (m.call c x)
          (remember sets (d.appId key) ((m.call c x).ownerId c key))).2) := by
  rw [splitLoop, if_neg h, hx]
  rfl

/-- The windows that are still to come are in the active set. -/
structure Awaiting (s : Stage κ) (a : ℕ) (keys : List κ) : Prop where
  owned : s.Owned
  active : s.active = some a
  owner : ∀ k ∈ keys, s.owner k = some a
  nodup : keys.Nodup

variable {s : Stage κ}

omit [DecidableEq κ] in
theorem Awaiting.fresh (h : Awaiting s a keys) : a < s.nextRef :=
  h.owned.fresh a (Stage.mem_refs.mpr (Or.inl h.active))

omit [DecidableEq κ] in
theorem Awaiting.skip (h : Awaiting s a (key :: keys)) : Awaiting s a keys where
  owned := h.owned
  active := h.active
  owner k hk := h.owner k (List.mem_cons_of_mem _ hk)
  nodup := h.nodup.of_cons

theorem Awaiting.move (h : Awaiting s a (key :: keys)) (id : UInt32) :
    Awaiting (s.moveWindow key id).1 a keys where
  owned := h.owned.moveWindow key id
  active := (Stage.moveWindow_toActive key id).trans h.active
  owner k hk := by
    have hne : k ≠ key := fun he => (List.nodup_cons.mp h.nodup).1 (he ▸ hk)
    rw [Stage.moveWindow_owner_of_ne hne]
    exact h.owner k (List.mem_cons_of_mem _ hk)
  nodup := h.nodup.of_cons

/-- A window that does not come keeps its set. -/
theorem owner_splitLoop {k : κ} (h : k ∉ keys) :
    ((splitLoop d c lead keys m sets).1.model c).owner k = (m.model c).owner k := by
  induction keys generalizing m sets with
  | nil => rfl
  | cons key keys ih =>
    obtain ⟨hne, hrest⟩ := List.ne_and_not_mem_of_not_mem_cons h
    by_cases hlead : d.appId key = lead
    · rw [splitLoop_lead hlead, ih hrest]
    · rw [splitLoop_move hlead rfl]
      dsimp only
      rw [ih hrest, model_call_self]
      exact Stage.moveWindow_owner_of_ne hne _

/-- The loop leaves a model in order, with the same active set. -/
theorem awaiting_splitLoop (h : Awaiting (m.model c) a keys) :
    Awaiting ((splitLoop d c lead keys m sets).1.model c) a [] := by
  induction keys generalizing m sets with
  | nil => exact h
  | cons key keys ih =>
    by_cases hlead : d.appId key = lead
    · rw [splitLoop_lead hlead]
      exact ih h.skip
    · rw [splitLoop_move hlead rfl]
      refine ih ?_
      rw [model_call_self]
      exact h.move _

/-- What the loop hides was not hidden before, and is hidden then. -/
theorem hidden_splitLoop (h : Awaiting (m.model c) a keys) :
    (∀ k, k ∈ ((splitLoop d c lead keys m sets).1.model c).hidden ↔
      k ∈ (m.model c).hidden ∨ k ∈ (splitLoop d c lead keys m sets).2) ∧
    (splitLoop d c lead keys m sets).2.Nodup ∧
    ∀ k ∈ (splitLoop d c lead keys m sets).2,
      k ∈ keys ∧ d.appId k ≠ lead ∧ k ∉ (m.model c).hidden ∧ k ∉ (m.model c).userMinimized := by
  induction keys generalizing m sets with
  | nil =>
    exact ⟨fun k => (or_iff_left List.not_mem_nil).symm, List.nodup_nil,
      fun k hk => absurd hk List.not_mem_nil⟩
  | cons key keys ih =>
    by_cases hlead : d.appId key = lead
    · rw [splitLoop_lead hlead]
      obtain ⟨hhidden, hnodup, hmem⟩ := @ih m sets h.skip
      exact ⟨hhidden, hnodup, fun k hk => ⟨List.mem_cons_of_mem _ (hmem k hk).1, (hmem k hk).2⟩⟩
    · rw [splitLoop_move hlead rfl]
      obtain ⟨id, hid⟩ : ∃ id, id = (sets (d.appId key)).getD 0 := ⟨_, rfl⟩
      rw [← hid]
      have hready : Awaiting ((m.call c (.moveWindow key id)).model c) a keys := by
        rw [model_call_self]
        exact h.move id
      obtain ⟨hhidden, hnodup, hmem⟩ := @ih _ (remember sets (d.appId key)
        ((m.call c (.moveWindow key id)).ownerId c key)) hready
      obtain ⟨hstep, hmin, hplan⟩ :=
        Stage.moveWindow_hidden h.active (h.owner key List.mem_cons_self) h.fresh id
      have hmodel : (m.call c (.moveWindow key id)).model c =
          ((m.model c).moveWindow key id).1 := model_call_self ..
      rw [hmodel] at hhidden hmem
      have hplanOf : (m.planOf c (.moveWindow key id)).hide =
          ((m.model c).moveWindow key id).2.hide := rfl
      refine ⟨fun k => ?_, ?_, fun k hk => ?_⟩
      · rw [hhidden, hstep, hplanOf, List.mem_append, or_assoc]
      · refine List.nodup_append.mpr ⟨?_, hnodup, ?_⟩
        · rw [hplanOf]
          rcases hplan with hnone | ⟨hone, -⟩
          · rw [hnone]
            exact List.nodup_nil
          · rw [hone]
            exact List.nodup_singleton key
        · rintro k hk l hl rfl
          exact (hmem k hl).2.2.1 ((hstep k).mpr (Or.inr hk))
      · rcases List.mem_append.mp hk with hk | hk
        · rw [hplanOf] at hk
          rcases hplan with hnone | ⟨hone, hshown, huser⟩
          · rw [hnone] at hk
            exact absurd hk List.not_mem_nil
          · rw [hone] at hk
            obtain rfl := List.mem_singleton.mp hk
            exact ⟨List.mem_cons_self, hlead, hshown, huser⟩
        · obtain ⟨hkeys, happ, hshown, huser⟩ := hmem k hk
          refine ⟨List.mem_cons_of_mem _ hkeys, happ, fun hbad => ?_, hmin ▸ huser⟩
          exact hshown ((hstep k).mpr (Or.inl hbad))

end Loop

/-! ### As long as the sets are found -/

section Splitting

variable (appId : κ → String) (lead : String) (s₀ : Stage κ) (a : ℕ)

/-- One set for each application, the latest at the front. -/
structure Listed (seen : List String) (t : Stage κ) : Prop where
  inactive : t.inactive = ((List.range seen.length).map (s₀.nextRef + ·)).reverse
  nextRef : t.nextRef = s₀.nextRef + seen.length
  nextId : t.nextId = s₀.nextId + UInt32.ofNat seen.length
  idActive : (t.sets a).id = (s₀.sets a).id
  ids : ∀ app ∈ seen, (t.sets (s₀.nextRef + seen.idxOf app)).id = newId s₀ seen app

/-- The windows of `done` are where they belong. -/
structure Splitting (done : List κ) (s : Stage κ) (sets : String → Option UInt32) : Prop where
  listed : Listed s₀ a (apps appId lead done) s
  windows : (s.sets a).windows =
    (s₀.sets a).windows.filter fun k => ¬ (k ∈ done ∧ appId k ≠ lead)
  stay : ∀ k ∈ done, appId k = lead → s.owner k = some a
  moved : ∀ k ∈ done, appId k ≠ lead →
    s.owner k = some (s₀.nextRef + (apps appId lead done).idxOf (appId k))
  found : ∀ app, sets app = if app ∈ apps appId lead done then
    some (newId s₀ (apps appId lead done) app) else none
  hidden : ∀ k ∈ done, appId k ≠ lead → k ∉ s₀.userMinimized → k ∈ s.hidden
  userMinimized : s.userMinimized = s₀.userMinimized

variable {appId lead s₀ a} {done : List κ} {s : Stage κ} {sets : String → Option UInt32}
variable {key : κ} {seen : List String}

theorem Listed.takeAway {t : Stage κ} (h : Listed s₀ a seen t) (key : κ) (r : ℕ) :
    Listed s₀ a seen (t.takeAway a key r).1 where
  inactive := h.inactive
  nextRef := h.nextRef
  nextId := h.nextId
  idActive := (Stage.takeAway_id t a r key a).trans h.idActive
  ids app happ := (Stage.takeAway_id t a r key _).trans (h.ids app happ)

omit [DecidableEq κ] in
/-- A new set for a new application. -/
theorem Listed.withNewSet (h : Listed s₀ a seen s) (hfresh : a < s₀.nextRef) {app : String}
    (hnew : app ∉ seen) : Listed s₀ a (seen ++ [app]) s.withNewSet where
  inactive := by
    change s.nextRef :: s.inactive = _
    rw [h.inactive, h.nextRef, List.length_append, List.length_singleton, List.range_succ,
      List.map_append, List.reverse_append, List.map_singleton, List.reverse_singleton,
      List.singleton_append]
  nextRef := by
    change s.nextRef + 1 = _
    rw [h.nextRef, List.length_append, List.length_singleton, add_assoc]
  nextId := by
    change s.nextId + 1 = _
    rw [h.nextId, List.length_append, List.length_singleton, UInt32.ofNat_add, UInt32.add_assoc]
    rfl
  idActive := by
    change (Function.update s.sets s.nextRef ⟨s.nextId, []⟩ a).id = _
    have hne : a ≠ s.nextRef := by
      have hnext := h.nextRef
      omega
    rw [Function.update_of_ne hne, h.idActive]
  ids other hother := by
    change (Function.update s.sets s.nextRef ⟨s.nextId, []⟩ _).id = _
    rcases List.mem_append.mp hother with hold | hlast
    · have hlt := List.idxOf_lt_length_iff.mpr hold
      have hne : s₀.nextRef + seen.idxOf other ≠ s.nextRef := by
        have hnext := h.nextRef
        omega
      rw [newId, List.idxOf_append_of_mem hold, Function.update_of_ne hne, h.ids other hold,
        newId]
    · obtain rfl := List.mem_singleton.mp hlast
      have hidx : (seen ++ [other]).idxOf other = seen.length := by
        rw [List.idxOf_append, if_neg hnew, List.idxOf_cons_self, zero_add]
      rw [newId, hidx, ← h.nextRef, Function.update_self]
      exact h.nextId

/-- The windows of the active set after one has left it. -/
theorem filter_erase_done (hnodup : (s₀.sets a).windows.Nodup) (hlead : appId key ≠ lead) :
    ((s₀.sets a).windows.filter fun k => ¬ (k ∈ done ∧ appId k ≠ lead)).erase key =
      (s₀.sets a).windows.filter fun k => ¬ (k ∈ done ++ [key] ∧ appId k ≠ lead) := by
  rw [Lists.erase_eq_filter_ne (hnodup.filter _), List.filter_filter]
  refine List.filter_congr fun k _ => ?_
  rw [← Bool.decide_and, decide_eq_decide, List.mem_append, List.mem_singleton]
  by_cases hk : k = key
  · simp [hk, hlead]
  · simp [hk]

/-- A window that has gone to the set of its application is where it belongs. -/
theorem Splitting.takeAway (h : Splitting appId lead s₀ a done s sets)
    (hnodup : (s₀.sets a).windows.Nodup) (hfresh : a < s₀.nextRef) (hkey : key ∉ done)
    (hlead : appId key ≠ lead) {t : Stage κ} (howner : t.owner = s.owner)
    (hhidden : t.hidden = s.hidden) (hmin : t.userMinimized = s.userMinimized)
    (hsets : t.sets a = s.sets a)
    (hlisted : Listed s₀ a (apps appId lead (done ++ [key])) t)
    {sets' : String → Option UInt32} (hfound : ∀ app, sets' app =
      if app ∈ apps appId lead (done ++ [key]) then
        some (newId s₀ (apps appId lead (done ++ [key])) app) else none) :
    Splitting appId lead s₀ a (done ++ [key]) (t.takeAway a key
      (s₀.nextRef + (apps appId lead (done ++ [key])).idxOf (appId key))).1 sets' := by
  have hold : ∀ k ∈ done, k ≠ key := fun k hk he => hkey (he ▸ hk)
  refine ⟨hlisted.takeAway _ _, ?_, fun k hk hstay => ?_, fun k hk hmoved => ?_, hfound,
    fun k hk hmoved huser => ?_, hmin.trans h.userMinimized⟩
  · have hne : s₀.nextRef + (apps appId lead (done ++ [key])).idxOf (appId key) ≠ a := by omega
    rw [Stage.takeAway_windows _ _ _ _ hne, hsets, h.windows, filter_erase_done hnodup hlead]
  · rcases List.mem_append.mp hk with hk | hk
    · rw [Stage.takeAway_owner, Function.update_of_ne (hold k hk), howner]
      exact h.stay k hk hstay
    · rw [List.mem_singleton.mp hk] at hstay
      exact absurd hstay hlead
  · rcases List.mem_append.mp hk with hk | hk
    · have hseen : appId k ∈ apps appId lead done := mem_apps.mpr ⟨hmoved, k, hk, rfl⟩
      rw [Stage.takeAway_owner, Function.update_of_ne (hold k hk), howner,
        idxOf_apps_append hseen]
      exact h.moved k hk hmoved
    · rw [List.mem_singleton.mp hk, Stage.takeAway_owner, Function.update_self]
  · rw [Stage.takeAway_hidden, hhidden, hmin, h.userMinimized]
    rcases List.mem_append.mp hk with hk | hk
    · have hbefore := h.hidden k hk hmoved huser
      split_ifs
      · exact hbefore
      · exact Finset.mem_insert_of_mem hbefore
    · rw [List.mem_singleton.mp hk] at huser ⊢
      split_ifs with hout
      · exact hout.resolve_right huser
      · exact Finset.mem_insert_self _ _

omit [DecidableEq κ] in
theorem newId_inj {app other : String} (hlen : seen.length ≤ 2 ^ 32) (happ : app ∈ seen)
    (hother : other ∈ seen) (h : newId s₀ seen app = newId s₀ seen other) : app = other := by
  have hlt := List.idxOf_lt_length_iff.mpr happ
  have hlt' := List.idxOf_lt_length_iff.mpr hother
  have hcast := congrArg UInt32.toNat ((UInt32.add_right_inj _).mp h)
  rw [UInt32.toNat_ofNat', UInt32.toNat_ofNat', Nat.mod_eq_of_lt (by omega),
    Nat.mod_eq_of_lt (by omega)] at hcast
  exact (List.idxOf_inj happ).mp hcast

omit [DecidableEq κ] in
/-- An id that is not the one of the active set finds the set of its application. -/
theorem Listed.findSet_eq (h : Listed s₀ a seen s) (hactive : s.active = some a)
    (hnodup : seen.Nodup) (hlen : seen.length ≤ 2 ^ 32) {app : String} (happ : app ∈ seen)
    (hid : newId s₀ seen app ≠ (s₀.sets a).id) :
    s.findSet (newId s₀ seen app) = some (s₀.nextRef + seen.idxOf app) := by
  refine Lists.find?_eq_some_of_unique ?_ (decide_eq_true (h.ids app happ)) fun r hr hrid => ?_
  · rw [Stage.mem_refs, h.inactive, List.mem_reverse, List.mem_map]
    exact Or.inr ⟨_, List.mem_range.mpr (List.idxOf_lt_length_iff.mpr happ), rfl⟩
  · have hrid := of_decide_eq_true hrid
    rcases Stage.mem_refs.mp hr with hact | hinactive
    · obtain rfl : a = r := Option.some_inj.mp (hactive.symm.trans hact)
      exact absurd (hrid.symm.trans h.idActive) hid
    · rw [h.inactive, List.mem_reverse, List.mem_map] at hinactive
      obtain ⟨i, hi, rfl⟩ := hinactive
      have hi := List.mem_range.mp hi
      have hidx : seen.idxOf seen[i] = i := hnodup.idxOf_getElem i hi
      have hids := h.ids seen[i] (List.getElem_mem hi)
      rw [hidx] at hids
      rw [← newId_inj hlen (List.getElem_mem hi) happ (hids.symm.trans hrid), hidx]

theorem Splitting.ofLead (h : Splitting appId lead s₀ a done s sets) (hlead : appId key = lead)
    (howner : s.owner key = some a) :
    Splitting appId lead s₀ a (done ++ [key]) s sets := by
  have happs : apps appId lead (done ++ [key]) = apps appId lead done :=
    apps_concat_of_seen (Or.inl hlead)
  have hmem : ∀ k ∈ done ++ [key], appId k ≠ lead → k ∈ done := by
    intro k hk hmoved
    rcases List.mem_append.mp hk with hk | hk
    · exact hk
    · rw [List.mem_singleton.mp hk] at hmoved
      exact absurd hlead hmoved
  refine ⟨happs ▸ h.listed, ?_, fun k hk hstay => ?_, fun k hk hmoved => ?_, happs ▸ h.found,
    fun k hk hmoved => h.hidden k (hmem k hk hmoved) hmoved, h.userMinimized⟩
  · rw [h.windows]
    refine List.filter_congr fun k _ => ?_
    rw [decide_eq_decide, not_iff_not]
    exact ⟨fun hk => ⟨List.mem_append_left _ hk.1, hk.2⟩, fun hk => ⟨hmem k hk.1 hk.2, hk.2⟩⟩
  · rcases List.mem_append.mp hk with hk | hk
    · exact h.stay k hk hstay
    · rw [List.mem_singleton.mp hk]
      exact howner
  · rw [happs]
    exact h.moved k (hmem k hk hmoved) hmoved

variable {d : Desk κ} {c : String} {m : Manager κ} {keys : List κ}

/-- The first window of an application opens its set. -/
theorem Splitting.first (h : Splitting d.appId lead s₀ a done (m.model c) sets)
    (hready : Awaiting (m.model c) a (key :: keys)) (hnodup : (s₀.sets a).windows.Nodup)
    (hfresh : a < s₀.nextRef) (hkey : key ∉ done) (hlead : d.appId key ≠ lead)
    (hnew : d.appId key ∉ apps d.appId lead done) {x : Call κ}
    (hx : x = .moveWindow key ((sets (d.appId key)).getD 0)) :
    Splitting d.appId lead s₀ a (done ++ [key]) ((m.call c x).model c)
      (remember sets (d.appId key) ((m.call c x).ownerId c key)) := by
  have happs := apps_concat_of_new hlead hnew
  have hnone : sets (d.appId key) = none := by rw [h.found, if_neg hnew]
  have hidx : (apps d.appId lead (done ++ [key])).idxOf (d.appId key) =
      (apps d.appId lead done).length := by
    rw [happs, List.idxOf_append, if_neg hnew, List.idxOf_cons_self, zero_add]
  have hlisted : Listed s₀ a (apps d.appId lead (done ++ [key])) (m.model c).withNewSet :=
    happs ▸ h.listed.withNewSet hfresh hnew
  have hmodel : (m.call c x).model c = ((m.model c).withNewSet.takeAway a key
      (s₀.nextRef + (apps d.appId lead (done ++ [key])).idxOf (d.appId key))).1 := by
    rw [hx, hnone, model_call_self, hidx, ← h.listed.nextRef]
    exact congrArg Prod.fst
      (Stage.moveWindow_new hready.active (hready.owner key List.mem_cons_self) hready.fresh)
  have hseen : d.appId key ∈ apps d.appId lead (done ++ [key]) :=
    mem_apps.mpr ⟨hlead, key, List.mem_append_right _ (List.mem_singleton_self key), rfl⟩
  have hid : (m.call c x).ownerId c key =
      some (newId s₀ (apps d.appId lead (done ++ [key])) (d.appId key)) := by
    rw [ownerId, hmodel, Stage.takeAway_owner, Function.update_self, Option.map_some,
      Stage.takeAway_id, hlisted.ids _ hseen]
  rw [hmodel, hid, remember_none hnone]
  have hsets : (m.model c).withNewSet.sets a = (m.model c).sets a :=
    Function.update_of_ne hready.fresh.ne _ _
  refine h.takeAway (t := (m.model c).withNewSet) hnodup hfresh hkey hlead rfl rfl rfl hsets
    hlisted fun app => ?_
  by_cases happ : app = d.appId key
  · rw [happ, Function.update_self, if_pos hseen]
  · rw [Function.update_of_ne happ, h.found]
    have hmem : app ∈ apps d.appId lead (done ++ [key]) ↔ app ∈ apps d.appId lead done := by
      rw [happs, List.mem_append, List.mem_singleton, or_iff_left happ]
    by_cases hold : app ∈ apps d.appId lead done
    · rw [if_pos hold, if_pos (hmem.mpr hold), newId, newId, idxOf_apps_append hold]
    · rw [if_neg hold, if_neg (mt hmem.mp hold)]

/-- The others join it when its id finds it. -/
theorem Splitting.joins (h : Splitting d.appId lead s₀ a done (m.model c) sets)
    (hready : Awaiting (m.model c) a (key :: keys)) (hnodup : (s₀.sets a).windows.Nodup)
    (hfresh : a < s₀.nextRef) (hkey : key ∉ done) (hlead : d.appId key ≠ lead)
    (hlen : done.length ≤ 2 ^ 32) (hseen : d.appId key ∈ apps d.appId lead done)
    (h0 : newId s₀ (apps d.appId lead done) (d.appId key) ≠ 0)
    (hid : newId s₀ (apps d.appId lead done) (d.appId key) ≠ (s₀.sets a).id) {x : Call κ}
    (hx : x = .moveWindow key ((sets (d.appId key)).getD 0)) :
    Splitting d.appId lead s₀ a (done ++ [key]) ((m.call c x).model c)
      (remember sets (d.appId key) ((m.call c x).ownerId c key)) := by
  have happs : apps d.appId lead (done ++ [key]) = apps d.appId lead done :=
    apps_concat_of_seen (Or.inr hseen)
  have hsome : sets (d.appId key) =
      some (newId s₀ (apps d.appId lead done) (d.appId key)) := by rw [h.found, if_pos hseen]
  have hfind := h.listed.findSet_eq hready.active (nodup_apps done)
    ((length_apps_le done).trans hlen) hseen hid
  have hne : s₀.nextRef + (apps d.appId lead done).idxOf (d.appId key) ≠ a := by omega
  have hmodel : (m.call c x).model c = ((m.model c).takeAway a key
      (s₀.nextRef + (apps d.appId lead (done ++ [key])).idxOf (d.appId key))).1 := by
    rw [hx, hsome, model_call_self, happs]
    exact congrArg Prod.fst (Stage.moveWindow_found hready.active
      (hready.owner key List.mem_cons_self) h0 hfind hne)
  rw [hmodel, remember_some hsome]
  exact h.takeAway hnodup hfresh hkey hlead rfl rfl rfl rfl (happs ▸ h.listed) (happs ▸ h.found)

/-- Where the id does not find the set, the window ends in another one. -/
theorem Splitting.strays (h : Splitting d.appId lead s₀ a done (m.model c) sets)
    (hready : Awaiting (m.model c) a (key :: keys)) (hfresh : a < s₀.nextRef)
    (hseen : d.appId key ∈ apps d.appId lead done)
    (hid : newId s₀ (apps d.appId lead done) (d.appId key) = 0 ∨
      newId s₀ (apps d.appId lead done) (d.appId key) = (s₀.sets a).id) {x : Call κ}
    (hx : x = .moveWindow key ((sets (d.appId key)).getD 0)) :
    ((m.call c x).model c).owner key ≠
      some (s₀.nextRef + (apps d.appId lead done).idxOf (d.appId key)) := by
  have hsome : sets (d.appId key) =
      some (newId s₀ (apps d.appId lead done) (d.appId key)) := by rw [h.found, if_pos hseen]
  have hidx := List.idxOf_lt_length_iff.mpr hseen
  have howner := hready.owner key List.mem_cons_self
  obtain ⟨id, hnew⟩ : ∃ id, id = newId s₀ (apps d.appId lead done) (d.appId key) := ⟨_, rfl⟩
  rw [hx, hsome, model_call_self, Option.getD_some, ← hnew]
  rw [← hnew] at hid
  change ((m.model c).moveWindow key id).1.owner key ≠ _
  by_cases h0 : id = 0
  · rw [h0, Stage.moveWindow_new hready.active howner hready.fresh, Stage.takeAway_owner,
      Function.update_self, h.listed.nextRef]
    intro he
    have := Option.some_inj.mp he
    omega
  · have hact := hid.resolve_left h0
    rw [Stage.moveWindow_active hready.active howner h0 (h.listed.idActive.trans hact.symm),
      howner]
    intro he
    have := Option.some_inj.mp he
    omega

/-- Every window that comes after another one of its application has an id that finds the set. -/
def AllFound (appId : κ → String) (lead : String) (s₀ : Stage κ) (a : ℕ) (done : List κ) :
    List κ → Prop
  | [] => True
  | key :: keys =>
    (appId key ∈ apps appId lead done →
      newId s₀ (apps appId lead done) (appId key) ≠ 0 ∧
      newId s₀ (apps appId lead done) (appId key) ≠ (s₀.sets a).id) ∧
    AllFound appId lead s₀ a (done ++ [key]) keys

/-- **The loop.** Where every id finds its set the windows are where they belong, and otherwise two
windows of one application are in different sets. -/
theorem Splitting.run (h : Splitting d.appId lead s₀ a done (m.model c) sets)
    (hready : Awaiting (m.model c) a keys) (hnodup : (s₀.sets a).windows.Nodup)
    (hfresh : a < s₀.nextRef) (hdone : ∀ k ∈ keys, k ∉ done)
    (hlen : (done ++ keys).length ≤ 2 ^ 32) :
    (AllFound d.appId lead s₀ a done keys ∧ ∃ sets', Splitting d.appId lead s₀ a (done ++ keys)
      ((splitLoop d c lead keys m sets).1.model c) sets') ∨
    (¬ AllFound d.appId lead s₀ a done keys ∧ ∃ k ∈ done ++ keys, ∃ l ∈ done ++ keys,
      d.appId k = d.appId l ∧ ((splitLoop d c lead keys m sets).1.model c).owner k ≠
        ((splitLoop d c lead keys m sets).1.model c).owner l) := by
  induction keys generalizing done m sets with
  | nil =>
    rw [List.append_nil]
    exact Or.inl ⟨trivial, sets, h⟩
  | cons key keys ih =>
    have hkey : key ∉ done := hdone key List.mem_cons_self
    have hsplit : done ++ key :: keys = done ++ [key] ++ keys := by
      rw [List.append_assoc, List.singleton_append]
    have hnext : ∀ k ∈ keys, k ∉ done ++ [key] := by
      intro k hk hbad
      rcases List.mem_append.mp hbad with hbad | hbad
      · exact hdone k (List.mem_cons_of_mem _ hk) hbad
      · exact (List.nodup_cons.mp hready.nodup).1 (List.mem_singleton.mp hbad ▸ hk)
    by_cases hlead : d.appId key = lead
    · have hnot : d.appId key ∉ apps d.appId lead done := fun hbad => (mem_apps.mp hbad).1 hlead
      have hhead : AllFound d.appId lead s₀ a done (key :: keys) ↔
          AllFound d.appId lead s₀ a (done ++ [key]) keys :=
        and_iff_right fun hbad => absurd hbad hnot
      rw [splitLoop_lead hlead, hhead, hsplit]
      exact ih (h.ofLead hlead (hready.owner key List.mem_cons_self)) hready.skip hnext
        (hsplit ▸ hlen)
    · obtain ⟨x, hx⟩ : ∃ x : Call κ, x = .moveWindow key ((sets (d.appId key)).getD 0) := ⟨_, rfl⟩
      have hready' : Awaiting ((m.call c x).model c) a keys := by
        rw [hx, model_call_self]
        exact hready.move _
      rw [splitLoop_move hlead hx]
      dsimp only
      by_cases hseen : d.appId key ∈ apps d.appId lead done
      · by_cases hid : newId s₀ (apps d.appId lead done) (d.appId key) ≠ 0 ∧
            newId s₀ (apps d.appId lead done) (d.appId key) ≠ (s₀.sets a).id
        · have hhead : AllFound d.appId lead s₀ a done (key :: keys) ↔
              AllFound d.appId lead s₀ a (done ++ [key]) keys := and_iff_right fun _ => hid
          have hbound : done.length ≤ 2 ^ 32 := by
            rw [List.length_append] at hlen
            omega
          rw [hhead, hsplit]
          exact ih (h.joins hready hnodup hfresh hkey hlead hbound hseen hid.1 hid.2 hx) hready'
            hnext (hsplit ▸ hlen)
        · -- the window strays from the first one of its application
          obtain ⟨hne, l, hl, happ⟩ := mem_apps.mp hseen
          have hlkeys : l ∉ keys := fun hbad => hdone l (List.mem_cons_of_mem _ hbad) hl
          have hstray := h.strays hready hfresh hseen (not_and_or.mp hid |>.imp not_not.mp
            not_not.mp) hx
          refine Or.inr ⟨fun hall => hid (hall.1 hseen), key,
            List.mem_append_right _ List.mem_cons_self, l, List.mem_append_left _ hl, happ.symm, ?_⟩
          rw [owner_splitLoop (List.nodup_cons.mp hready.nodup).1, owner_splitLoop hlkeys]
          have hlne : l ≠ key := fun he => hkey (he ▸ hl)
          have howner : ((m.call c x).model c).owner l = (m.model c).owner l := by
            rw [hx, model_call_self]
            exact Stage.moveWindow_owner_of_ne hlne _
          rw [howner, h.moved l hl (happ ▸ hne), happ]
          exact hstray
      · have hhead : AllFound d.appId lead s₀ a done (key :: keys) ↔
            AllFound d.appId lead s₀ a (done ++ [key]) keys :=
          and_iff_right fun hbad => absurd hbad hseen
        rw [hhead, hsplit]
        exact ih (h.first hready hnodup hfresh hkey hlead hseen hx) hready' hnext (hsplit ▸ hlen)

omit [DecidableEq κ] in
theorem allFound_iff {appId : κ → String} : AllFound appId lead s₀ a done keys ↔
    ∀ pre key post, keys = pre ++ key :: post → appId key ∈ apps appId lead (done ++ pre) →
      newId s₀ (apps appId lead (done ++ pre)) (appId key) ≠ 0 ∧
      newId s₀ (apps appId lead (done ++ pre)) (appId key) ≠ (s₀.sets a).id := by
  induction keys generalizing done with
  | nil => simp [AllFound]
  | cons first keys ih =>
    rw [AllFound, ih]
    constructor
    · rintro ⟨hfirst, hrest⟩ (_ | ⟨head, pre⟩) key post hsplit hseen
      · obtain ⟨rfl, -⟩ := List.cons.inj hsplit
        rw [List.append_nil] at hseen ⊢
        exact hfirst hseen
      · obtain ⟨rfl, hkeys⟩ := List.cons.inj hsplit
        have hassoc : done ++ first :: pre = done ++ [first] ++ pre := by
          rw [List.append_assoc, List.singleton_append]
        rw [hassoc] at hseen ⊢
        exact hrest pre key post hkeys hseen
    · intro hall
      refine ⟨fun hseen => ?_, fun pre key post hkeys hseen => ?_⟩
      · have hfirst := hall [] first keys rfl
        rw [List.append_nil] at hfirst
        exact hfirst hseen
      · have hassoc : done ++ [first] ++ pre = done ++ first :: pre := by
          rw [List.append_assoc, List.singleton_append]
        rw [hassoc] at hseen ⊢
        exact hall (first :: pre) key post (by rw [hkeys, List.cons_append]) hseen

omit [DecidableEq κ] in
theorem newId_append {appId : κ → String} {app : String} (h : app ∈ apps appId lead done)
    (rest : List κ) :
    newId s₀ (apps appId lead (done ++ rest)) app = newId s₀ (apps appId lead done) app := by
  rw [newId, idxOf_apps_append h, newId]

omit [DecidableEq κ] in
/-- The windows that come second are those of the applications with more than one. -/
theorem allFound_nil_iff {appId : κ → String} (hnodup : keys.Nodup) :
    AllFound appId lead s₀ a [] keys ↔
    ∀ k ∈ keys, ∀ l ∈ keys, k ≠ l → appId k = appId l → appId k ≠ lead →
      newId s₀ (apps appId lead keys) (appId k) ≠ 0 ∧
      newId s₀ (apps appId lead keys) (appId k) ≠ (s₀.sets a).id := by
  rw [allFound_iff]
  constructor
  · intro hall k hk l hl hne happ hlead
    -- the one of the two that comes second
    obtain ⟨pre, first, post, second, hkeys, hsecond, hfirst, hfound⟩ :
        ∃ pre first post second, keys = pre ++ second :: post ∧ first ∈ pre ∧
          appId first = appId k ∧ appId second = appId k := by
      obtain ⟨pre, post, rfl⟩ := List.append_of_mem hk
      rcases List.mem_append.mp hl with hl | hl
      · exact ⟨pre, l, post, k, rfl, hl, happ.symm, rfl⟩
      · have hl := (List.mem_cons.mp hl).resolve_left hne.symm
        obtain ⟨mid, post, rfl⟩ := List.append_of_mem hl
        refine ⟨pre ++ k :: mid, k, post, l, ?_, ?_, rfl, happ.symm⟩
        · rw [List.append_assoc, List.cons_append]
        · exact List.mem_append_right _ List.mem_cons_self
    have hseen : appId second ∈ apps appId lead pre :=
      mem_apps.mpr ⟨hfound ▸ hlead, first, hsecond, hfirst.trans hfound.symm⟩
    have hgood := hall pre second post hkeys hseen
    rw [List.nil_append, ← newId_append hseen (second :: post), ← hkeys, hfound] at hgood
    exact hgood
  · rintro hall pre key post rfl hseen
    rw [List.nil_append] at hseen ⊢
    obtain ⟨hlead, l, hl, happ⟩ := mem_apps.mp hseen
    rw [← newId_append hseen (key :: post)]
    refine hall key (List.mem_append_right _ List.mem_cons_self) l (List.mem_append_left _ hl) ?_
      happ.symm hlead
    rintro rfl
    exact (List.nodup_append.mp hnodup).2.2 key hl key List.mem_cons_self rfl

end Splitting

/-! ### `split_by_app` -/

variable {d : Desk κ} {c : String} {m : Manager κ} {s s₀ : Stage κ} {a : ℕ}

theorem splitByApp_eq_splitLoop {first : κ} {rest : List κ} (ha : (m.model c).active = some a)
    (hw : ((m.model c).sets a).windows = first :: rest) : m.splitByApp d c =
      splitLoop d c (d.appId first) (first :: rest).reverse m fun _ => none := by
  rw [splitByApp, ha]
  dsimp only
  rw [hw]
  cases rest with
  | nil =>
    rw [List.reverse_singleton, splitLoop_lead rfl]
    rfl
  | cons second rest => rfl

omit [DecidableEq κ] in
theorem moved_iff {appId : κ → String} {first : κ} {rest : List κ} (ha : s₀.active = some a)
    (hw : (s₀.sets a).windows = first :: rest) (k : κ) :
    Moved appId s₀ k ↔ k ∈ first :: rest ∧ appId k ≠ appId first := by
  constructor
  · rintro ⟨b, other, tail, hb, hother, hk, hne⟩
    obtain rfl : a = b := Option.some_inj.mp (ha.symm.trans hb)
    obtain ⟨rfl, rfl⟩ := List.cons.inj (hw.symm.trans hother)
    exact ⟨hk, hne⟩
  · rintro ⟨hk, hne⟩
    exact ⟨a, first, rest, ha, hw, hk, hne⟩

omit [DecidableEq κ] in
theorem found_iff {appId : κ → String} {first : κ} {rest : List κ} (ha : s₀.active = some a)
    (hw : (s₀.sets a).windows = first :: rest) (hnodup : (first :: rest).Nodup) :
    Found appId s₀ ↔ AllFound appId (appId first) s₀ a [] (first :: rest).reverse := by
  rw [allFound_nil_iff (List.nodup_reverse.mpr hnodup)]
  constructor
  · intro h k hk l hl
    exact h a first rest ha hw k (List.mem_reverse.mp hk) l (List.mem_reverse.mp hl)
  · intro h b other tail hb hother k hk l hl
    obtain rfl : a = b := Option.some_inj.mp (ha.symm.trans hb)
    obtain ⟨rfl, rfl⟩ := List.cons.inj (hw.symm.trans hother)
    exact h k (List.mem_reverse.mpr hk) l (List.mem_reverse.mpr hl)

omit [DecidableEq κ] in
/-- A model with no other windows than those of the active set has no other sets. -/
theorem inactive_eq_nil (ho : s.Owned) (hn : s.NoEmpty)
    (hall : ∀ k r, s.owner k = some r → s.active = some r) : s.inactive = [] := by
  refine List.eq_nil_iff_forall_not_mem.mpr fun r hr => ?_
  obtain ⟨k, hk⟩ := List.exists_mem_of_ne_nil _ (hn r hr)
  have hrefs : r ∈ s.refs := Stage.mem_refs.mpr (Or.inr hr)
  have hactive := hall k r ((ho.owner_iff k r).mpr ⟨hrefs, hk⟩)
  have hnodup := ho.nodup
  rw [Stage.refs_active hactive] at hnodup
  exact (List.nodup_cons.mp hnodup).1 hr

/-- Where the windows are where they belong the split is right, but for what was hidden before. -/
theorem Splitting.split {first : κ} {rest : List κ} {sets : String → Option UInt32}
    {hide : List κ} (h : Splitting d.appId (d.appId first) s₀ a (first :: rest).reverse s sets)
    (ho : s₀.Owned) (ha : s₀.active = some a) (hw : (s₀.sets a).windows = first :: rest)
    (hall : ∀ k r, s₀.owner k = some r → s₀.active = some r) (hactive : s.active = some a)
    (hhidden : ∀ k, k ∈ s.hidden ↔ k ∈ s₀.hidden ∨ k ∈ hide) (hnodup : hide.Nodup)
    (hmem : ∀ k ∈ hide, k ∈ (first :: rest).reverse ∧ d.appId k ≠ d.appId first ∧
      k ∉ s₀.hidden ∧ k ∉ s₀.userMinimized) (hempty : s₀.hidden = ∅) :
    Split d.appId s₀ s hide := by
  have hwindows : ∀ k, s₀.owner k ≠ none → k ∈ (first :: rest).reverse := by
    intro k hk
    obtain ⟨r, hr⟩ := Option.ne_none_iff_exists'.mp hk
    obtain rfl : a = r := Option.some_inj.mp (ha.symm.trans (hall k r hr))
    rw [List.mem_reverse, ← hw]
    exact ((ho.owner_iff k a).mp hr).2
  have hfresh : a < s₀.nextRef := ho.fresh a (Stage.mem_refs.mpr (Or.inl ha))
  have hnone : ∀ k, k ∉ s₀.hidden := fun k hk => by simp [hempty] at hk
  have hseen : ∀ k ∈ (first :: rest).reverse, d.appId k ≠ d.appId first →
      d.appId k ∈ apps d.appId (d.appId first) (first :: rest).reverse :=
    fun k hk hne => mem_apps.mpr ⟨hne, k, hk, rfl⟩
  refine ⟨fun k l hk hl => ?_, hactive.trans ha.symm, fun b other tail hb hother => ?_,
    fun k hk => ?_, hnodup, fun k => ?_, fun k => ?_⟩
  · have hk := hwindows k hk
    have hl := hwindows l hl
    by_cases hkl : d.appId k = d.appId first <;> by_cases hll : d.appId l = d.appId first
    · rw [h.stay k hk hkl, h.stay l hl hll, hkl, hll]
      exact iff_of_true rfl rfl
    · rw [h.stay k hk hkl, h.moved l hl hll, Option.some_inj, hkl]
      exact iff_of_false (by omega) (Ne.symm hll)
    · rw [h.moved k hk hkl, h.stay l hl hll, Option.some_inj, hll]
      exact iff_of_false (by omega) hkl
    · rw [h.moved k hk hkl, h.moved l hl hll, Option.some_inj, Nat.add_left_cancel_iff]
      exact List.idxOf_inj (hseen k hk hkl)
  · obtain rfl : a = b := Option.some_inj.mp (ha.symm.trans hb)
    obtain ⟨rfl, rfl⟩ := List.cons.inj (hw.symm.trans hother)
    rw [h.windows, hw]
    refine List.filter_congr fun k hk => ?_
    rw [decide_eq_decide, not_and, not_not]
    exact ⟨fun hstay => hstay (List.mem_reverse.mpr hk), fun hstay _ => hstay⟩
  · obtain ⟨hk, hne⟩ := (moved_iff ha hw k).mp hk
    have hk := List.mem_reverse.mpr hk
    refine ⟨_, ?_, h.moved k hk hne⟩
    rw [h.listed.inactive, List.mem_reverse, List.mem_map]
    exact ⟨_, List.mem_range.mpr (List.idxOf_lt_length_iff.mpr (hseen k hk hne)), rfl⟩
  · rw [moved_iff ha hw]
    constructor
    · intro hk
      obtain ⟨hkeys, hne, -, huser⟩ := hmem k hk
      exact ⟨⟨List.mem_reverse.mp hkeys, hne⟩, huser⟩
    · rintro ⟨⟨hk, hne⟩, huser⟩
      have hin := h.hidden k (List.mem_reverse.mpr hk) hne huser
      exact ((hhidden k).mp hin).resolve_left (hnone k)
  · rw [hhidden]
    exact or_iff_right (hnone k)

omit [DecidableEq κ] in
/-- With nothing to move the model stays as it is. -/
theorem split_nil_iff {appId : κ → String} (hnone : ∀ k, s.owner k = none) (hkeys : ∀ b,
    s.active = some b → (s.sets b).windows = []) : Split appId s s [] ↔ s.hidden = ∅ := by
  have hmoved : ∀ k, ¬ Moved appId s k := by
    rintro k ⟨b, first, rest, hb, hw, -⟩
    exact List.cons_ne_nil first rest (hw.symm.trans (hkeys b hb))
  constructor
  · intro h
    exact Finset.eq_empty_of_forall_notMem fun k hk => List.not_mem_nil ((h.hidden k).mp hk)
  · intro hempty
    refine ⟨fun k l hk => absurd (hnone k) hk, rfl, fun b first rest hb hw => ?_,
      fun k hk => absurd hk (hmoved k), List.nodup_nil, fun k => ?_, fun k => ?_⟩
    · exact absurd (hw.symm.trans (hkeys b hb)) (List.cons_ne_nil _ _)
    · exact iff_of_false List.not_mem_nil fun hk => hmoved k hk.1
    · rw [hempty]
      exact iff_of_false (Finset.notMem_empty k) List.not_mem_nil

/-- **When the split is right.** The windows of a model are all in its active set, of which there
are as many as a list can hold. The split gives one set to each application, and hides what it moves
away, exactly when nothing was hidden before and each application with more than one window to move
gets an id that finds its set again. -/
theorem splitByApp_iff (m : Manager κ) (d : Desk κ) (c : String) (ho : (m.model c).Owned)
    (hn : (m.model c).NoEmpty)
    (hall : ∀ k r, (m.model c).owner k = some r → (m.model c).active = some r)
    (hsize : ∀ a, (m.model c).active = some a →
      ((m.model c).sets a).windows.length < 2 ^ 31) :
    Split d.appId (m.model c) ((m.splitByApp d c).1.model c) (m.splitByApp d c).2 ↔
      (m.model c).hidden = ∅ ∧ Found d.appId (m.model c) := by
  by_cases hwindows : ∃ a first rest, (m.model c).active = some a ∧
      ((m.model c).sets a).windows = first :: rest
  · obtain ⟨a, first, rest, ha, hw⟩ := hwindows
    have hrefs : a ∈ (m.model c).refs := Stage.mem_refs.mpr (Or.inl ha)
    have hnodup := ho.windows_nodup a hrefs
    have hready : Awaiting (m.model c) a (first :: rest).reverse := by
      refine ⟨ho, ha, fun k hk => (ho.owner_iff k a).mpr ⟨hrefs, ?_⟩,
        List.nodup_reverse.mpr (hw ▸ hnodup)⟩
      rw [hw]
      exact List.mem_reverse.mp hk
    have hstart : Splitting d.appId (d.appId first) (m.model c) a [] (m.model c)
        fun _ => none := by
      refine ⟨⟨inactive_eq_nil ho hn hall, rfl, ?_, rfl, ?_⟩, ?_, ?_, ?_, ?_, ?_, rfl⟩
      · exact (UInt32.add_zero _).symm
      · simp [apps]
      · simp
      · simp
      · simp
      · simp [apps]
      · simp
    have hlen : ([] ++ (first :: rest).reverse).length ≤ 2 ^ 32 := by
      have hbound := hsize a ha
      rw [hw] at hbound
      rw [List.nil_append, List.length_reverse]
      omega
    rw [splitByApp_eq_splitLoop ha hw, found_iff ha hw (hw ▸ hnodup)]
    obtain ⟨hhidden, hnd, hmem⟩ :=
      @hidden_splitLoop _ _ d c (d.appId first) m (fun _ => none) _ a hready
    have hend := @awaiting_splitLoop _ _ d c (d.appId first) m (fun _ => none) _ a hready
    have hrun := hstart.run hready hnodup hready.fresh (by simp) hlen
    rw [List.nil_append] at hrun
    rcases hrun with ⟨hfound, sets, hsplit⟩ | ⟨hbad, k, hk, l, hl, happ, howner⟩
    · rw [and_iff_left hfound]
      constructor
      · intro h
        refine Finset.eq_empty_of_forall_notMem fun k hk => ?_
        have hhide := (h.hidden k).mp ((hhidden k).mpr (Or.inl hk))
        exact (hmem k hhide).2.2.1 hk
      · exact hsplit.split ho ha hw hall hend.active hhidden hnd hmem
    · refine iff_of_false (fun h => ?_) fun h => hbad h.2
      have hone : ∀ k ∈ (first :: rest).reverse, (m.model c).owner k ≠ none := fun k hk =>
        Option.ne_none_iff_exists'.mpr ⟨a, hready.owner k hk⟩
      exact howner ((h.together k l (hone k hk) (hone l hl)).mpr happ)
  · have hkeys : ∀ b, (m.model c).active = some b → ((m.model c).sets b).windows = [] := by
      intro b hb
      cases hw : ((m.model c).sets b).windows with
      | nil => rfl
      | cons first rest => exact absurd ⟨b, first, rest, hb, hw⟩ hwindows
    have hnone : ∀ k, (m.model c).owner k = none := by
      intro k
      cases hk : (m.model c).owner k with
      | none => rfl
      | some r =>
        have hmem := ((ho.owner_iff k r).mp hk).2
        rw [hkeys r (hall k r hk)] at hmem
        exact absurd hmem List.not_mem_nil
    have hsame : m.splitByApp d c = (m, []) := by
      rw [splitByApp]
      cases ha : (m.model c).active with
      | none => rfl
      | some a =>
        dsimp only
        rw [hkeys a ha]
    have hfound : Found d.appId (m.model c) := fun b first rest hb hw =>
      absurd ⟨b, first, rest, hb, hw⟩ hwindows
    rw [hsame, and_iff_left hfound]
    exact split_nil_iff hnone hkeys

theorem sound_calls (calls : List (Call κ)) (c : String) :
    ((calls.foldl (fun m x => m.call c x) start).model c).Owned ∧
      ((calls.foldl (fun m x => m.call c x) start).model c).NoEmpty := by
  induction calls using List.reverseRecOn with
  | nil => exact ⟨Stage.owned_fresh _, Stage.noEmpty_fresh _⟩
  | append_singleton calls x ih =>
    rw [List.foldl_append, List.foldl_cons, List.foldl_nil, model_call_self]
    exact ⟨ih.1.call x, Stage.NoEmpty.call ih.1 ih.2 x⟩

omit [DecidableEq κ] in
theorem active_of_owner (ho : s.Owned) (hi : s.inactive = []) (k : κ) (r : ℕ)
    (hk : s.owner k = some r) : s.active = some r := by
  rcases Stage.mem_refs.mp ((ho.owner_iff k r).mp hk).1 with hactive | hinactive
  · exact hactive
  · rw [hi] at hinactive
    exact absurd hinactive List.not_mem_nil

/-- The window `a` of one application and two windows of another one. -/
def twoApps : Desk String :=
  { Desk.twoMonitors fun _ => 0 with appId := fun key => if key = "a" then "x" else "y" }

/-- Three windows open on a monitor. -/
def opened (before : List (Call String)) : Manager String :=
  (before ++ [Call.addWindow "a", Call.addWindow "b", Call.addWindow "c"]).foldl
    (fun m x => m.call "DP-1" x) start

theorem splitByApp_opened : Split twoApps.appId ((opened []).model "DP-1")
    (((opened []).splitByApp twoApps "DP-1").1.model "DP-1")
    ((opened []).splitByApp twoApps "DP-1").2 := by
  have hs := sound_calls [.addWindow "a", .addWindow "b", .addWindow "c"] "DP-1"
  refine (splitByApp_iff (opened []) twoApps "DP-1" hs.1 hs.2
    (active_of_owner hs.1 (by decide)) fun a ha => ?_).mpr ⟨by decide, ?_⟩
  · obtain rfl : 0 = a := Option.some_inj.mp ha
    decide
  · have hw : (((opened []).model "DP-1").sets 0).windows = "a" :: ["b", "c"] := rfl
    have hall : AllFound twoApps.appId "x" ((opened []).model "DP-1") 0 [] ["c", "b", "a"] :=
      ⟨by decide, by decide, by decide, trivial⟩
    exact (found_iff rfl hw (by decide)).mpr hall

/-- The counter of the ids has come to its end, so that the application of `b` and `c` gets the id
that asks for a new set. -/
theorem not_split_of_wrap : ¬ ∀ (m : Manager String) (d : Desk String) (c : String),
    (m.model c).Owned → (m.model c).NoEmpty →
    (∀ k r, (m.model c).owner k = some r → (m.model c).active = some r) →
    (∀ a, (m.model c).active = some a → ((m.model c).sets a).windows.length < 2 ^ 31) →
    Split d.appId (m.model c) ((m.splitByApp d c).1.model c) (m.splitByApp d c).2 := by
  intro hall
  have hs := sound_calls [.restoreWindow "z" 4294967294 false false, .removeWindow "z",
    .addWindow "a", .addWindow "b", .addWindow "c"] "DP-1"
  have hsplit := hall (opened [.restoreWindow "z" 4294967294 false false, .removeWindow "z"])
    twoApps "DP-1" hs.1 hs.2 (active_of_owner hs.1 (by decide)) fun a ha => by
      obtain rfl : 1 = a := Option.some_inj.mp ha
      decide
  have htogether := (hsplit.together "b" "c" (by decide) (by decide)).mpr (by decide)
  exact absurd htogether (by decide)

end Manager

end SingularityShell
