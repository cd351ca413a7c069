import Mathlib.Data.Finset.Basic
import Mathlib.Data.List.Basic
import Mathlib.Logic.Function.Basic

/-!
# `StageModel`: the windows of one monitor, grouped into sets

The model of `core/stage/stage_model.vala`. A `StageModel` keeps one active `StageSet` and a list
of inactive ones; every window key belongs to one set, and two flag sets say which windows the
stage has hidden and which ones the user has minimised.

## Objects

`StageSet` objects are compared by identity in the source (`target == active`,
`_inactive.remove(target)`), and `_owner` maps a key to an object, so the objects live in a
`Heap` and everything else holds references to them. Two different sets may well carry one `id`;
whether they ever do is a theorem, not an assumption of the model. References are handed out in
order of allocation and never reused, so a model of the process's allocator is a counter.

The heap also holds the static `_next_id`, which all models of the process share. It is a `uint`,
and it wraps.

## Main definitions

* `StageSet`, `StageModel`, `Heap` — the data
* `Stage` — a model together with the heap it lives in; the methods of `StageModel` act on it
* `Stage.restoreWindow`, `restoreFinish`, `adopt`, `addWindow`, `removeWindow`,
  `setUserMinimized`, `activate`, `moveWindow`, `markShown`, `clear` — the mutating methods
-/

namespace SingularityShell

variable {κ : Type*}

/-! ### Data -/

/-- A `StageSet` object: its `id`, fixed at construction, and its `windows`. -/
structure StageSet (κ : Type*) where
  /-- The number the compositor tags the set's windows with. -/
  id : UInt32
  /-- The keys of the set, in the order they joined. -/
  windows : List κ

/-- A `StagePlan`: what the compositor has to do after an operation. -/
structure StagePlan (κ : Type*) where
  /-- Windows to hide. -/
  hide : List κ := []
  /-- Windows to show. -/
  show_ : List κ := []

/-- What the models of one process share. -/
structure Heap (κ : Type*) where
  /-- The static `_next_id`. -/
  nextId : UInt32
  /-- The reference the next `StageSet` object gets. -/
  nextRef : ℕ
  /-- The `StageSet` objects, by reference. -/
  sets : ℕ → StageSet κ

/-- The heap a process starts with: `_next_id = 1` and no set. -/
def Heap.initial : Heap κ := ⟨1, 0, fun _ => ⟨0, []⟩⟩

/-- The fields of a `StageModel`. -/
structure StageModel (κ : Type*) where
  /-- `active`: the set on screen. -/
  active : Option ℕ
  /-- `_inactive`: the other sets, most recently used first. -/
  inactive : List ℕ
  /-- `_owner`: the set of each window. -/
  owner : κ → Option ℕ
  /-- `_hidden`: the windows the stage has hidden. -/
  hidden : Finset κ
  /-- `_user_minimized`: the windows the user has minimised. -/
  userMinimized : Finset κ

/-- A new `StageModel`. -/
def StageModel.fresh : StageModel κ := ⟨none, [], fun _ => none, ∅, ∅⟩

/-- A model in the heap it lives in. -/
structure Stage (κ : Type*) extends Heap κ, StageModel κ

namespace Stage

variable (s : Stage κ)

/-! ### Reading -/

/-- The sets of the model: the active one, then the inactive ones. -/
def refs : List ℕ := s.active.toList ++ s.inactive

/-- `find_set`. -/
def findSet (id : UInt32) : Option ℕ := s.refs.find? fun r => (s.sets r).id = id

/-- `set_order`. -/
def setOrder : List UInt32 := s.inactive.map fun r => (s.sets r).id

/-- `all_windows`. -/
def allWindows : List κ := s.refs.flatMap fun r => (s.sets r).windows

/-! ### Allocation -/

/-- `new StageSet(id)`. -/
def newStageSet (id : UInt32) : Stage κ × ℕ :=
  ({ s with nextRef := s.nextRef + 1, sets := Function.update s.sets s.nextRef ⟨id, []⟩ },
    s.nextRef)

/-- `new_set`. The counter is a `uint`: after `uint.MAX` comes `0`. -/
def newSet : Stage κ × ℕ := newStageSet { s with nextId := s.nextId + 1 } s.nextId

/-- `reserve_id`. -/
def reserveId (id : UInt32) : Stage κ :=
  if s.nextId ≤ id then { s with nextId := id + 1 } else s

/-- `if (active == null) active = new_set()`, and the set that is active then. -/
def ensureActive : Stage κ × ℕ :=
  match s.active with
  | some a => (s, a)
  | none => ({ s.newSet.1 with active := some s.newSet.2 }, s.newSet.2)

variable [DecidableEq κ]

/-! ### Helpers the methods share -/

/-- `r.windows.add(key); _owner[key] = r`. -/
def pushWindow (r : ℕ) (key : κ) : Stage κ :=
  { s with
    sets := Function.update s.sets r { s.sets r with windows := (s.sets r).windows ++ [key] }
    owner := Function.update s.owner key (some r) }

/-- `r.windows.remove(key)`. -/
def dropWindow (r : ℕ) (key : κ) : Stage κ :=
  { s with
    sets := Function.update s.sets r { s.sets r with windows := (s.sets r).windows.erase key } }

/-- `if (r != active && r.windows.size == 0) _inactive.remove(r)`. -/
def dropIfEmpty (r : ℕ) : Stage κ :=
  if s.active ≠ some r ∧ (s.sets r).windows = [] then { s with inactive := s.inactive.erase r }
  else s

/-- The loop that takes each of the keys out of `_hidden` into `plan.show`. -/
def showLoop (hidden : Finset κ) : List κ → Finset κ × List κ
  | [] => (hidden, [])
  | key :: keys =>
    if key ∈ hidden then
      ((showLoop (hidden.erase key) keys).1, key :: (showLoop (hidden.erase key) keys).2)
    else showLoop hidden keys

/-- The loop that puts each of the keys that is not flagged into `_hidden` and `plan.hide`. -/
def hideLoop (userMinimized hidden : Finset κ) : List κ → Finset κ × List κ
  | [] => (hidden, [])
  | key :: keys =>
    if key ∈ hidden ∨ key ∈ userMinimized then hideLoop userMinimized hidden keys
    else
      ((hideLoop userMinimized (insert key hidden) keys).1,
        key :: (hideLoop userMinimized (insert key hidden) keys).2)

/-- Shows the keys that are hidden. -/
def showKeys (keys : List κ) : Stage κ × List κ :=
  ({ s with hidden := (showLoop s.hidden keys).1 }, (showLoop s.hidden keys).2)

/-- Hides the keys that are neither hidden nor minimised by the user. -/
def hideKeys (keys : List κ) : Stage κ × List κ :=
  ({ s with hidden := (hideLoop s.userMinimized s.hidden keys).1 },
    (hideLoop s.userMinimized s.hidden keys).2)

/-! ### The mutating methods -/

/-- `add_window`. The set it returns is the owner of `key` afterwards. -/
def addWindow (key : κ) : Stage κ :=
  if (s.owner key).isSome then s else s.ensureActive.1.pushWindow s.ensureActive.2 key

/-- `if (minimized && hidden) _hidden.add(key); else if (minimized) _user_minimized.add(key)`. -/
def flagRestored (key : κ) (minimized hidden : Bool) : Stage κ :=
  if minimized && hidden then { s with hidden := insert key s.hidden }
  else if minimized then { s with userMinimized := insert key s.userMinimized }
  else s

/-- The set with the given id, added at the end of the inactive ones when there is none. -/
def findOrAdd (id : UInt32) : Stage κ × ℕ :=
  match s.findSet id with
  | some r => (s, r)
  | none =>
    ({ (s.newStageSet id).1 with inactive := s.inactive ++ [(s.newStageSet id).2] },
      (s.newStageSet id).2)

/-- `restore_window`. -/
def restoreWindow (key : κ) (setId : UInt32) (minimized hidden : Bool) : Stage κ :=
  if (s.owner key).isSome then s
  else if setId = 0 then (s.addWindow key).flagRestored key minimized hidden
  else
    let t := (s.reserveId setId).findOrAdd setId
    (t.1.pushWindow t.2 key).flagRestored key minimized hidden

/-- `first_visible_set`. -/
def firstVisibleSet : Option ℕ :=
  s.inactive.find? fun r => (s.sets r).windows.any fun key =>
    decide (key ∉ s.hidden) && decide (key ∉ s.userMinimized)

/-- The set `restore_finish` wants on screen: the one with the given id, else the first inactive
set with a visible window, else the first inactive set. -/
def wantedSet (activeId : UInt32) : Option ℕ :=
  match if activeId ≠ 0 then s.findSet activeId else none with
  | some r => some r
  | none => s.firstVisibleSet.or s.inactive.head?

/-- Makes `wanted` the active set; the windows of the active set before it join `wanted`. -/
def mergeActiveInto (wanted : ℕ) : Stage κ :=
  let moved := match s.active with
    | none => s
    | some a => (s.sets a).windows.foldl (fun t key => t.pushWindow wanted key) s
  { moved with inactive := s.inactive.erase wanted, active := some wanted }

/-- The reordering of `restore_finish`: first the sets the order names, in its order, then the
rest in their old order. -/
def sortSets (sets : ℕ → StageSet κ) (order : List UInt32) (inactive : List ℕ) : List ℕ :=
  let sorted := order.foldl (fun sorted id =>
    inactive.foldl (fun sorted r =>
      if (sets r).id = id ∧ r ∉ sorted then sorted ++ [r] else sorted) sorted) []
  inactive.foldl (fun sorted r => if r ∉ sorted then sorted ++ [r] else sorted) sorted

/-- `if (order != null && order.size > 0)`, the reordering. -/
def reorder (order : Option (List UInt32)) : Stage κ :=
  match order with
  | none => s
  | some [] => s
  | some ids => { s with inactive := sortSets s.sets ids s.inactive }

/-- The first half of `restore_finish`: which set is active. -/
def chooseActive (activeId : UInt32) : Stage κ × ℕ :=
  let t := match s.wantedSet activeId with
    | some wanted => if s.active = some wanted then s else s.mergeActiveInto wanted
    | none => s
  t.ensureActive

/-- `restore_finish`. -/
def restoreFinish (activeId : UInt32) (order : Option (List UInt32)) : Stage κ × StagePlan κ :=
  let t := (s.chooseActive activeId).1.reorder order
  let a := (s.chooseActive activeId).2
  let t₁ := t.showKeys (t.sets a).windows
  let t₂ := t₁.1.hideKeys (t.inactive.flatMap fun r => (t.sets r).windows)
  ({ t₂.1 with inactive := t.inactive.filter fun r => !(t.sets r).windows.isEmpty },
    ⟨t₂.2, t₁.2⟩)

/-- The first half of `adopt`: the windows of the other model's active set join the active set. -/
def adoptActive (other : StageModel κ) : Stage κ :=
  match other.active with
  | none => s
  | some oa =>
    if (s.sets oa).windows.isEmpty then s
    else
      (s.sets oa).windows.foldl (fun t key =>
        { t.pushWindow s.ensureActive.2 key with
          userMinimized :=
            if key ∈ other.userMinimized then insert key t.userMinimized else t.userMinimized })
        s.ensureActive.1

/-- One round of the second loop of `adopt`: an inactive set of the other model is taken over. -/
def adoptSet (other : StageModel κ) (r : ℕ) : Stage κ :=
  if (s.sets r).windows.isEmpty then s
  else
    (s.sets r).windows.foldl (fun t key =>
      { t with
        owner := Function.update t.owner key (some r)
        hidden := if key ∈ other.hidden then insert key t.hidden else t.hidden
        userMinimized :=
          if key ∈ other.userMinimized then insert key t.userMinimized else t.userMinimized })
      { s with inactive := s.inactive ++ [r] }

/-- `adopt`. The other model is `StageModel.fresh` afterwards. -/
def adopt (other : StageModel κ) : Stage κ × StageModel κ :=
  (other.inactive.foldl (fun t r => t.adoptSet other r) (s.adoptActive other), .fresh)

/-- `remove_window`. -/
def removeWindow (key : κ) : Stage κ :=
  match s.owner key with
  | none => s
  | some r =>
    dropIfEmpty { s.dropWindow r key with
      owner := Function.update s.owner key none
      hidden := s.hidden.erase key
      userMinimized := s.userMinimized.erase key } r

/-- `set_user_minimized`. -/
def setUserMinimized (key : κ) (minimized : Bool) : Stage κ :=
  if (s.owner key).isNone then s
  else if minimized then { s with userMinimized := insert key s.userMinimized }
  else { s with userMinimized := s.userMinimized.erase key }

/-- The part of `activate` that puts the active set away: its visible windows are hidden, and the
set goes to the front of the inactive ones unless it is empty. -/
def putAway : Stage κ × List κ :=
  match s.active with
  | none => (s, [])
  | some previous =>
    let t := s.hideKeys (s.sets previous).windows
    (if (s.sets previous).windows ≠ [] then { t.1 with inactive := previous :: t.1.inactive }
      else t.1, t.2)

/-- `activate`. -/
def activate (id : UInt32) : Stage κ × StagePlan κ :=
  match s.findSet id with
  | none => (s, {})
  | some target =>
    if s.active = some target then (s, {})
    else
      let t := putAway { s with inactive := s.inactive.erase target }
      let u := showKeys { t.1 with active := some target } (t.1.sets target).windows
      (u.1, ⟨t.2, u.2⟩)

/-- The set a window moves to; id `0` asks for a new one, at the front of the inactive sets. -/
def moveTarget (targetId : UInt32) : Stage κ × ℕ :=
  match if targetId = 0 then none else s.findSet targetId with
  | some target => (s, target)
  | none => ({ s.newSet.1 with inactive := s.newSet.2 :: s.inactive }, s.newSet.2)

/-- The flags and the plan of `move_window` once the window has moved. -/
def moveFlags (key : κ) (source target : ℕ) : Stage κ × StagePlan κ :=
  if s.active = some target then ((s.showKeys [key]).1, ⟨[], (s.showKeys [key]).2⟩)
  else if s.active = some source then ((s.hideKeys [key]).1, ⟨(s.hideKeys [key]).2, []⟩)
  else (s, {})

/-- `move_window`. -/
def moveWindow (key : κ) (targetId : UInt32) : Stage κ × StagePlan κ :=
  match s.owner key with
  | none => (s, {})
  | some source =>
    if targetId ≠ 0 ∧ (s.findSet targetId = none ∨ s.findSet targetId = some source) then (s, {})
    else
      let t := s.moveTarget targetId
      let u := ((t.1.dropWindow source key).pushWindow t.2 key).moveFlags key source t.2
      (u.1.dropIfEmpty source, u.2)

/-- `mark_shown`. -/
def markShown (key : κ) : Stage κ :=
  { s with hidden := s.hidden.erase key, userMinimized := s.userMinimized.erase key }

/-- `clear`. The keys it returns are those of `_hidden`, in no particular order. -/
def clear : Stage κ × Finset κ := (⟨s.toHeap, .fresh⟩, s.hidden)

end Stage

end SingularityShell
