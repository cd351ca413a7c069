import SingularityShell.Idle.Model
import SingularityShell.Lib.Linked
import SingularityShell.Lib.Lists
import SingularityShell.Lib.Transition

/-!
# Idle notifications and the power of outputs

What the idle manager uses of the compositor is kept in two linked lists: the notifications that are
armed, and the outputs. The compositor has an object for each notification and for the power of each
output that it was told to switch, and each object knows the node that it belongs to. The memory for
a node may not be there; a request that makes an object is taken to succeed.

## Main definitions

* `IdleNotify.State`, `IdleNotify.step` — the lists, the objects, and the calls
* `IdleNotify.Sound` — what the lists and the objects have to do with each other
* `IdleNotify.Plan` — what is armed, without memory

## Main results

* `IdleNotify.memory_sound` — no memory is used after it was freed, and none is lost
* `IdleNotify.armed_refines` — what is armed is what was planned
* `IdleNotify.outputs_obey` — the outputs are in the mode that they were told
* `IdleNotify.armed_calls` — the watches of the manager are those that are armed
-/

namespace SingularityShell

namespace IdleNotify

/-! ### The code -/

/-- `struct idle_watch`. The callback and its data are known by a number. -/
structure IdleWatch where
  id : ℤ
  notification : ℕ
  callback : Option ℕ
  deriving DecidableEq

/-- `struct power_output`. Objects are known by numbers. -/
structure PowerOutput where
  name : UInt32
  output : ℕ
  power : Option ℕ := none
  deriving DecidableEq

/-- A notification of the compositor. `data` is the address of its node. -/
structure Notification where
  timeoutMs : UInt32
  inputOnly : Bool
  data : ℕ
  deriving DecidableEq

/-- An object for the power of an output, with the mode that it was told last. -/
structure Power where
  output : ℕ
  data : ℕ
  mode : Option Bool := none
  deriving DecidableEq

structure State where
  seat : Bool := false
  notifier : Bool := false
  notifierVersion : UInt32 := 0
  powerManager : Bool := false
  watches : Linked IdleWatch := {}
  outputs : Linked PowerOutput := {}
  wantOn : Bool := true
  /-- How often memory was allocated. -/
  allocated : ℕ := 0
  /-- How many objects there were. -/
  objects : ℕ := 0
  /-- The objects that were not destroyed. -/
  notifications : ℕ → Option Notification := fun _ => none
  powers : ℕ → Option Power := fun _ => none
  bound : ℕ → Bool := fun _ => false
  /-- The callbacks that were called, with the number of the watch and whether it is idle. -/
  calls : List (ℕ × ℤ × Bool) := []
  /-- Whether freed memory was used. -/
  broken : Bool := false

def State.destroyPower (power : Option ℕ) (s : State) : State :=
  match power with
  | some n => { s with powers := Function.update s.powers n none }
  | none => s

/-- `notification_idled` and `notification_resumed`. No event arrives for an object that was
destroyed. -/
def notificationEvent (idled : Bool) (n : ℕ) (s : State) : State :=
  match s.notifications n with
  | none => s
  | some notification =>
    match s.watches.nodes notification.data with
    | none => { s with broken := true }
    | some watch =>
      match watch.value.callback with
      | some callback => { s with calls := s.calls ++ [(callback, watch.value.id, idled)] }
      | none => s

/-- `power_failed` -/
def powerFailed (n : ℕ) (s : State) : State :=
  match s.powers n with
  | none => s
  | some power =>
    let s := s.destroyPower (some n)
    match s.outputs.nodes power.data with
    | none => { s with broken := true }
    | some _ => { s with outputs := s.outputs.modify power.data ({ · with power := none }) }

/-- `zwlr_output_power_v1_set_mode` -/
def setMode (n : ℕ) (s : State) : State :=
  { s with
    powers := Function.update s.powers n ((s.powers n).map ({ · with mode := some s.wantOn })) }

/-- `output_apply`, on an output that has an object, as they all do. -/
def outputApply (p : ℕ) (s : State) : State :=
  match s.outputs.nodes p with
  | none => { s with broken := true }
  | some output =>
    if s.powerManager then
      match output.value.power with
      | some n => setMode n s
      | none =>
        setMode s.objects { s with
          objects := s.objects + 1
          powers := Function.update s.powers s.objects
            (some { output := output.value.output, data := p })
          outputs := s.outputs.modify p ({ · with power := some s.objects }) }
    else s

/-- The interfaces that are asked for. -/
inductive Interface where
  | idleNotifier
  | seat
  | outputPowerManager
  | output
  | other
  deriving DecidableEq

/-- `registry_global` -/
def registryGlobal (name : UInt32) (interface : Interface) (version : UInt32) (calloc : Bool)
    (s : State) : State :=
  match interface with
  | .idleNotifier =>
    { s with notifier := true, notifierVersion := if version < 2 then version else 2 }
  | .seat => { s with seat := true }
  | .outputPowerManager => { s with powerManager := true }
  | .output =>
    if calloc then
      { s with
        outputs := s.outputs.push s.allocated { name, output := s.objects }
        allocated := s.allocated + 1
        bound := Function.update s.bound s.objects true
        objects := s.objects + 1 }
    else s
  | .other => s

/-- `registry_global_remove` -/
def registryGlobalRemove (name : UInt32) (s : State) : State :=
  match s.outputs.unlink (·.name = name) (s.allocated + 1) none with
  | none => { s with broken := true }
  | some (_, none) => s
  | some (outputs, some (_, output)) =>
    let s := { s with outputs }.destroyPower output.power
    { s with bound := Function.update s.bound output.output false }

/-- `singularity_idle_unwatch` -/
def idleUnwatch (id : ℤ) (s : State) : State :=
  match s.watches.unlink (·.id = id) (s.allocated + 1) none with
  | none => { s with broken := true }
  | some (_, none) => s
  | some (watches, some (_, watch)) =>
    { s with watches, notifications := Function.update s.notifications watch.notification none }

/-- `singularity_idle_watch` -/
def idleWatch (id : ℤ) (timeoutMs : UInt32) (inputOnly : Bool) (callback : Option ℕ) (calloc : Bool)
    (s : State) : State :=
  let s := idleUnwatch id s
  if s.notifier && s.seat && calloc then
    { s with
      watches := s.watches.push s.allocated { id, notification := s.objects, callback }
      allocated := s.allocated + 1
      notifications := Function.update s.notifications s.objects
        (some ⟨timeoutMs, inputOnly && decide (s.notifierVersion ≥ 2), s.allocated⟩)
      objects := s.objects + 1 }
  else s

/-- What the loop of `singularity_output_power_set` reads after its body. -/
def nextOutput (s : State) (p : ℕ) : Option (Option ℕ) := (s.outputs.nodes p).map (·.next)

/-- `singularity_output_power_set` -/
def outputPowerSet (on : Bool) (s : State) : State :=
  let head := s.outputs.head
  match Linked.loop nextOutput outputApply (s.allocated + 1) head { s with wantOn := on } with
  | some s => s
  | none => { s with broken := true }

inductive Event where
  | global (name : UInt32) (interface : Interface) (version : UInt32) (calloc : Bool)
  | globalRemove (name : UInt32)
  /-- The event `idled`, or `resumed`, of a notification. -/
  | notification (idled : Bool) (n : ℕ)
  | powerFailed (n : ℕ)
  | watch (id : ℤ) (timeoutMs : UInt32) (inputOnly : Bool) (callback : Option ℕ) (calloc : Bool)
  | unwatch (id : ℤ)
  | powerSet (on : Bool)

def step (s : State) : Event → State
  | .global name interface version calloc => registryGlobal name interface version calloc s
  | .globalRemove name => registryGlobalRemove name s
  | .notification idled n => notificationEvent idled n s
  | .powerFailed n => powerFailed n s
  | .watch id timeoutMs inputOnly callback calloc =>
    idleWatch id timeoutMs inputOnly callback calloc s
  | .unwatch id => idleUnwatch id s
  | .powerSet on => outputPowerSet on s

/-! ### What is meant -/

/-- A watch, as it was asked for. -/
structure Armed where
  id : ℤ
  timeoutMs : UInt32
  inputOnly : Bool
  callback : Option ℕ
  deriving DecidableEq

/-- What is armed, with what is known of the compositor. -/
structure Plan where
  seat : Bool := false
  notifier : Bool := false
  notifierVersion : UInt32 := 0
  armed : List Armed := []

/-- The last watch with a number is armed until it is disarmed. -/
def Plan.step (plan : Plan) : Event → Plan
  | .global _ .idleNotifier version _ =>
    { plan with notifier := true, notifierVersion := if version < 2 then version else 2 }
  | .global _ .seat _ _ => { plan with seat := true }
  | .watch id timeoutMs inputOnly callback calloc =>
    let armed := plan.armed.filter (·.id ≠ id)
    if plan.notifier && plan.seat && calloc then
      { plan with armed :=
          ⟨id, timeoutMs, inputOnly && decide (plan.notifierVersion ≥ 2), callback⟩ :: armed }
    else { plan with armed }
  | .unwatch id => { plan with armed := plan.armed.filter (·.id ≠ id) }
  | _ => plan

/-- What was asked for with a node and its object. -/
def armedOf (s : State) (watch : IdleWatch) : Armed :=
  let notification := (s.notifications watch.notification).getD ⟨0, false, 0⟩
  ⟨watch.id, notification.timeoutMs, notification.inputOnly, watch.callback⟩

/-- The nodes of the watches have an object each that knows its node, and there are no others. -/
structure Watching (s : State) (ws : List (ℕ × IdleWatch)) : Prop where
  list : s.watches.Is ws
  below : ∀ p ∈ ws.map Prod.fst, p < s.allocated
  ids : (ws.map (·.2.id)).Nodup
  notification : ∀ p w, (p, w) ∈ ws → ∃ o, s.notifications w.notification = some o ∧ o.data = p
  owned : ∀ n o, s.notifications n = some o →
    n < s.objects ∧ ∃ w, (o.data, w) ∈ ws ∧ w.notification = n

/-- The nodes of the outputs have an output each, and an object for its power or none, which knows
its node. There are no others. -/
structure Powering (s : State) (os : List (ℕ × PowerOutput)) : Prop where
  list : s.outputs.Is os
  below : ∀ p ∈ os.map Prod.fst, p < s.allocated
  power : ∀ p o n, (p, o) ∈ os → o.power = some n →
    ∃ power, s.powers n = some power ∧ power.data = p ∧ power.output = o.output
  powerOwned : ∀ n power, s.powers n = some power →
    n < s.objects ∧ ∃ o, (power.data, o) ∈ os ∧ o.power = some n
  bound : ∀ p o, (p, o) ∈ os → s.bound o.output = true
  boundOwned : ∀ n, s.bound n = true → n < s.objects ∧ ∃ p o, (p, o) ∈ os ∧ o.output = n
  distinct : (os.map (·.2.output)).Nodup

/-- No memory is used after it was freed, and all that is allocated can be reached. -/
structure Sound (s : State) : Prop where
  intact : s.broken = false
  watching : ∃ ws, Watching s ws
  powering : ∃ os, Powering s os

/-! ### The watches -/

section
variable {s s' : State} {ws : List (ℕ × IdleWatch)}

theorem Watching.congr (h : Watching s ws) (hlist : s'.watches = s.watches)
    (hnotifications : s'.notifications = s.notifications) (hallocated : s.allocated ≤ s'.allocated)
    (hobjects : s.objects ≤ s'.objects) : Watching s' ws where
  list := hlist ▸ h.list
  below p hp := (h.below p hp).trans_le hallocated
  ids := h.ids
  notification := hnotifications ▸ h.notification
  owned n o ho := by
    rw [hnotifications] at ho
    exact ⟨(h.owned n o ho).1.trans_le hobjects, (h.owned n o ho).2⟩

/-- Different nodes have different objects. -/
theorem Watching.eq_of_notification (h : Watching s ws) {p p' : ℕ} {w w' : IdleWatch}
    (hp : (p, w) ∈ ws) (hp' : (p', w') ∈ ws) (heq : w.notification = w'.notification) : p = p' := by
  obtain ⟨o, ho, rfl⟩ := h.notification p w hp
  obtain ⟨o', ho', rfl⟩ := h.notification p' w' hp'
  rw [heq, ho'] at ho
  rw [Option.some.inj ho]

/-- `singularity_idle_unwatch` -/
theorem Watching.unwatch (h : Watching s ws) (id : ℤ) :
    ∃ watches notifications, idleUnwatch id s = { s with watches, notifications } ∧
      Watching (idleUnwatch id s) (ws.filter (·.2.id ≠ id)) ∧
      (ws.filter (·.2.id ≠ id)).map (fun node => armedOf (idleUnwatch id s) node.2) =
        (ws.map fun node => armedOf s node.2).filter (·.id ≠ id) := by
  have hrounds : ws.length < s.allocated + 1 := Nat.lt_succ_of_le (h.list.length_le h.below)
  have hunlink := h.list.unlink (fun w => decide (w.id = id)) hrounds
  have herase : (ws.eraseP fun node => decide (node.2.id = id)) = ws.filter (·.2.id ≠ id) :=
    Lists.eraseP_eq_filter (fun node : ℕ × IdleWatch => node.2.id) h.ids id
  rw [idleUnwatch]
  split at hunlink
  · next hnone =>
    have hall : ws.filter (·.2.id ≠ id) = ws :=
      List.filter_eq_self.2 fun node hnode => by simpa using List.find?_eq_none.1 hnone node hnode
    rw [hunlink, hall, List.filter_map]
    exact ⟨s.watches, s.notifications, rfl, h, congrArg (List.map _) hall.symm⟩
  · next node hsome =>
    obtain ⟨p, w⟩ := node
    obtain ⟨watches, heq, his⟩ := hunlink
    have hmem : (p, w) ∈ ws := List.mem_of_find?_eq_some hsome
    have hid : w.id = id := by simpa using List.find?_some hsome
    have hkept : ∀ p' w', (p', w') ∈ ws.filter (·.2.id ≠ id) →
        w'.notification ≠ w.notification := by
      intro p' w' hmem' hsame
      obtain ⟨hin, hne⟩ := List.mem_filter.1 hmem'
      have hp := h.eq_of_notification hin hmem hsame
      subst hp
      have hw : w' = w := h.list.value_unique hin hmem
      exact of_decide_eq_true hne (hw ▸ hid)
    rw [heq]
    rw [herase] at his
    refine ⟨watches, Function.update s.notifications w.notification none, rfl, ?_, ?_⟩
    swap
    · rw [List.filter_map]
      refine List.map_congr_left fun node hnode => ?_
      rw [armedOf, armedOf]
      dsimp only
      rw [Function.update_of_ne (hkept node.1 node.2 hnode)]
    refine ⟨his, fun p' hp' => ?_, ?_, fun p' w' hmem' => ?_, fun n o ho => ?_⟩
    · exact h.below p' ((List.filter_sublist.map Prod.fst).subset hp')
    · exact h.ids.sublist (List.filter_sublist.map _)
    · obtain ⟨o, ho, hdata⟩ := h.notification p' w' (List.mem_filter.1 hmem').1
      exact ⟨o, (Function.update_of_ne (hkept p' w' hmem') _ _).trans ho, hdata⟩
    · have hne : n ≠ w.notification := fun hn => by
        rw [hn] at ho
        exact absurd ((Function.update_self ..).symm.trans ho) (Option.some_ne_none _).symm
      obtain ⟨hlt, w', hin, hn⟩ := h.owned n o ((Function.update_of_ne hne _ _).symm.trans ho)
      refine ⟨hlt, w', List.mem_filter.2 ⟨hin, decide_eq_true fun hid' => hne ?_⟩, hn⟩
      have hsame := List.inj_on_of_nodup_map h.ids hin hmem (hid'.trans hid.symm)
      exact hn.symm.trans (congrArg (fun node : ℕ × IdleWatch => node.2.notification) hsame)

/-- A new node, with a new object. -/
theorem Watching.push (h : Watching s ws) {id : ℤ} (hid : ∀ node ∈ ws, node.2.id ≠ id)
    (timeoutMs : UInt32) (inputOnly : Bool) (callback : Option ℕ) :
    let s' := { s with
      watches := s.watches.push s.allocated { id, notification := s.objects, callback }
      allocated := s.allocated + 1
      notifications := Function.update s.notifications s.objects
        (some ⟨timeoutMs, inputOnly, s.allocated⟩)
      objects := s.objects + 1 }
    Watching s' ((s.allocated, { id, notification := s.objects, callback }) :: ws) ∧
      ((s.allocated, { id, notification := s.objects, callback }) :: ws).map
        (fun node => armedOf s' node.2) =
          ⟨id, timeoutMs, inputOnly, callback⟩ :: ws.map fun node => armedOf s node.2 := by
  have hfree : s.watches.nodes s.allocated = none := by
    rcases hnode : s.watches.nodes s.allocated with _ | node
    · rfl
    · exact absurd (h.below _ (h.list.all _ node hnode)) (Nat.lt_irrefl _)
  have hobject : ∀ p w, (p, w) ∈ ws → w.notification ≠ s.objects := by
    intro p w hmem
    obtain ⟨o, ho, -⟩ := h.notification p w hmem
    exact (h.owned _ o ho).1.ne
  refine ⟨⟨h.list.push hfree _, ?_, ?_, ?_, ?_⟩, ?_⟩
  · intro p hp
    rcases List.mem_cons.1 hp with rfl | hp
    · exact Nat.lt_succ_self _
    · exact (h.below p hp).trans (Nat.lt_succ_self _)
  · refine List.nodup_cons.2 ⟨fun hmem => ?_, h.ids⟩
    obtain ⟨node, hnode, heq⟩ := List.mem_map.1 hmem
    exact hid node hnode heq
  · intro p w hmem
    rcases List.mem_cons.1 hmem with heq | hmem
    · obtain ⟨rfl, rfl⟩ := Prod.mk.inj heq
      exact ⟨_, Function.update_self .., rfl⟩
    · obtain ⟨o, ho, hdata⟩ := h.notification p w hmem
      exact ⟨o, (Function.update_of_ne (hobject p w hmem) _ _).trans ho, hdata⟩
  · intro n o ho
    by_cases hn : n = s.objects
    · dsimp only at ho
      rw [hn, Function.update_self] at ho
      obtain rfl := Option.some.inj ho
      exact ⟨hn ▸ Nat.lt_succ_self _, _, List.mem_cons_self, hn.symm⟩
    · obtain ⟨hlt, w, hmem, hw⟩ := h.owned n o ((Function.update_of_ne hn _ _).symm.trans ho)
      exact ⟨hlt.trans (Nat.lt_succ_self _), w, List.mem_cons_of_mem _ hmem, hw⟩
  · rw [List.map_cons]
    refine congrArg₂ List.cons ?_ (List.map_congr_left fun node hnode => ?_)
    · rw [armedOf]
      dsimp only
      rw [Function.update_self]
      rfl
    · rw [armedOf, armedOf]
      dsimp only
      rw [Function.update_of_ne (hobject node.1 node.2 hnode)]

/-- `singularity_idle_watch` -/
theorem Watching.watch (h : Watching s ws) (id : ℤ) (timeoutMs : UInt32) (inputOnly : Bool)
    (callback : Option ℕ) (calloc : Bool) :
    ∃ watches notifications allocated objects,
      idleWatch id timeoutMs inputOnly callback calloc s =
        { s with watches, notifications, allocated, objects } ∧
      s.allocated ≤ allocated ∧ s.objects ≤ objects ∧
      ∃ ws', Watching (idleWatch id timeoutMs inputOnly callback calloc s) ws' ∧
        ws'.map (fun node => armedOf (idleWatch id timeoutMs inputOnly callback calloc s) node.2) =
          let armed := (ws.map fun node => armedOf s node.2).filter (·.id ≠ id)
          if s.notifier && s.seat && calloc then
            ⟨id, timeoutMs, inputOnly && decide (s.notifierVersion ≥ 2), callback⟩ :: armed
          else armed := by
  obtain ⟨watches, notifications, heq, hwatching, harmed⟩ := h.unwatch id
  rw [heq] at hwatching harmed
  rw [idleWatch]
  dsimp only
  rw [heq]
  dsimp only
  by_cases hcond : (s.notifier && s.seat && calloc) = true
  · rw [if_pos hcond, if_pos hcond]
    have hid : ∀ node ∈ ws.filter (·.2.id ≠ id), node.2.id ≠ id := fun node hnode =>
      of_decide_eq_true (List.mem_filter.1 hnode).2
    obtain ⟨hpushed, hmap⟩ := hwatching.push hid timeoutMs
      (inputOnly && decide (s.notifierVersion ≥ 2)) callback
    exact ⟨_, _, _, _, rfl, Nat.le_succ _, Nat.le_succ _, _, hpushed, harmed ▸ hmap⟩
  · rw [if_neg hcond, if_neg hcond]
    exact ⟨watches, notifications, s.allocated, s.objects, rfl, Nat.le_refl _, Nat.le_refl _,
      ws.filter (·.2.id ≠ id), hwatching, harmed⟩

end

/-! ### The outputs -/

section
variable {s s' : State} {os : List (ℕ × PowerOutput)}

theorem Powering.congr (h : Powering s os) (hlist : s'.outputs = s.outputs)
    (hpowers : s'.powers = s.powers) (hbound : s'.bound = s.bound)
    (hallocated : s.allocated ≤ s'.allocated) (hobjects : s.objects ≤ s'.objects) :
    Powering s' os where
  list := hlist ▸ h.list
  below p hp := (h.below p hp).trans_le hallocated
  power := hpowers ▸ h.power
  powerOwned n power hn := by
    rw [hpowers] at hn
    exact ⟨(h.powerOwned n power hn).1.trans_le hobjects, (h.powerOwned n power hn).2⟩
  bound := hbound ▸ h.bound
  boundOwned n hn := by
    rw [hbound] at hn
    exact ⟨(h.boundOwned n hn).1.trans_le hobjects, (h.boundOwned n hn).2⟩
  distinct := h.distinct

theorem Powering.free (h : Powering s os) : s.outputs.nodes s.allocated = none := by
  rcases hnode : s.outputs.nodes s.allocated with _ | node
  · rfl
  · exact absurd (h.below _ (h.list.all _ node hnode)) (Nat.lt_irrefl _)

/-- An output is announced. -/
theorem Powering.push (h : Powering s os) (name : UInt32) :
    Powering { s with
      outputs := s.outputs.push s.allocated { name, output := s.objects }
      allocated := s.allocated + 1
      bound := Function.update s.bound s.objects true
      objects := s.objects + 1 } ((s.allocated, { name, output := s.objects }) :: os) where
  list := h.list.push h.free _
  below p hp := by
    rcases List.mem_cons.1 hp with rfl | hp
    · exact Nat.lt_succ_self _
    · exact (h.below p hp).trans (Nat.lt_succ_self _)
  power p o n hmem hn := by
    rcases List.mem_cons.1 hmem with heq | hmem
    · obtain ⟨rfl, rfl⟩ := Prod.mk.inj heq
      cases hn
    · exact h.power p o n hmem hn
  powerOwned n power hn := by
    obtain ⟨hlt, o, hmem, ho⟩ := h.powerOwned n power hn
    exact ⟨hlt.trans (Nat.lt_succ_self _), o, List.mem_cons_of_mem _ hmem, ho⟩
  bound p o hmem := by
    rcases List.mem_cons.1 hmem with heq | hmem
    · obtain ⟨rfl, rfl⟩ := Prod.mk.inj heq
      exact Function.update_self ..
    · have hbound := h.bound p o hmem
      exact (Function.update_of_ne (h.boundOwned _ hbound).1.ne _ _).trans hbound
  boundOwned n hn := by
    by_cases heq : n = s.objects
    · exact ⟨heq ▸ Nat.lt_succ_self _, _, _, List.mem_cons_self, heq.symm⟩
    · obtain ⟨hlt, p, o, hmem, ho⟩ := h.boundOwned n ((Function.update_of_ne heq _ _).symm.trans hn)
      exact ⟨hlt.trans (Nat.lt_succ_self _), p, o, List.mem_cons_of_mem _ hmem, ho⟩
  distinct := by
    refine List.nodup_cons.2 ⟨fun hmem => ?_, h.distinct⟩
    obtain ⟨⟨p, o⟩, hmem, heq⟩ := List.mem_map.1 hmem
    exact absurd heq (h.boundOwned _ (h.bound p o hmem)).1.ne

theorem destroyPower_powers (power : Option ℕ) (s : State) (n : ℕ) :
    (s.destroyPower power).powers n = if power = some n then none else s.powers n := by
  cases power with
  | none => rfl
  | some m =>
    rw [State.destroyPower]
    by_cases hn : n = m
    · rw [hn, if_pos rfl]
      exact Function.update_self ..
    · rw [if_neg fun heq => hn (Option.some.inj heq).symm]
      exact Function.update_of_ne hn _ _

theorem destroyPower_eq (power : Option ℕ) (s : State) :
    s.destroyPower power = { s with powers := (s.destroyPower power).powers } := by
  cases power <;> rfl

/-- The objects of a node that is removed are destroyed, and no others. -/
theorem Powering.remove (h : Powering s os) {p : ℕ} {o : PowerOutput} (hmem : (p, o) ∈ os)
    {outputs : Linked PowerOutput} (hlist : outputs.Is (os.filter (·.1 ≠ p))) :
    Powering { s with
      outputs
      powers := (s.destroyPower o.power).powers
      bound := Function.update s.bound o.output false } (os.filter (·.1 ≠ p)) where
  list := hlist
  below p' hp := h.below p' ((List.filter_sublist.map Prod.fst).subset hp)
  power p' o' n hmem' hn := by
    obtain ⟨hin, hne⟩ := List.mem_filter.1 hmem'
    obtain ⟨power, hpower, rfl, houtput⟩ := h.power p' o' n hin hn
    refine ⟨power, ?_, rfl, houtput⟩
    rw [destroyPower_powers, if_neg fun ho => of_decide_eq_true hne ?_, hpower]
    obtain ⟨power', hpower', hdata, -⟩ := h.power p o n hmem ho
    rw [← hdata, Option.some.inj (hpower.symm.trans hpower')]
  powerOwned n power hn := by
    rw [destroyPower_powers] at hn
    split_ifs at hn with ho
    obtain ⟨hlt, o', hin, ho'⟩ := h.powerOwned n power hn
    refine ⟨hlt, o', List.mem_filter.2 ⟨hin, decide_eq_true fun heq => ho ?_⟩, ho'⟩
    have hsame : (p, o') ∈ os := (show power.data = p from heq) ▸ hin
    rw [h.list.value_unique hmem hsame, ho']
  bound p' o' hmem' := by
    obtain ⟨hin, hne⟩ := List.mem_filter.1 hmem'
    refine (Function.update_of_ne (fun heq => of_decide_eq_true hne ?_) _ _).trans
      (h.bound p' o' hin)
    exact congrArg Prod.fst (List.inj_on_of_nodup_map h.distinct hin hmem heq)
  boundOwned n hn := by
    by_cases heq : n = o.output
    · dsimp only at hn
      rw [heq, Function.update_self] at hn
      cases hn
    · obtain ⟨hlt, p', o', hin, ho'⟩ :=
        h.boundOwned n ((Function.update_of_ne heq _ _).symm.trans hn)
      refine ⟨hlt, p', o', List.mem_filter.2 ⟨hin, decide_eq_true fun hp => heq ?_⟩, ho'⟩
      have hsame : (p, o') ∈ os := (show p' = p from hp) ▸ hin
      rw [← ho', h.list.value_unique hsame hmem]
  distinct := h.distinct.sublist (List.filter_sublist.map _)

/-- `registry_global_remove` -/
theorem Powering.globalRemove (h : Powering s os) (name : UInt32) :
    ∃ outputs powers bound os', registryGlobalRemove name s = { s with outputs, powers, bound } ∧
      Powering (registryGlobalRemove name s) os' ∧ os'.Sublist os ∧
      ∀ p o n, (p, o) ∈ os' → o.power = some n → powers n = s.powers n := by
  have hrounds : os.length < s.allocated + 1 := Nat.lt_succ_of_le (h.list.length_le h.below)
  have hunlink := h.list.unlink (fun o => decide (o.name = name)) hrounds
  rw [registryGlobalRemove]
  split at hunlink
  · rw [hunlink]
    exact ⟨s.outputs, s.powers, s.bound, os, rfl, h, List.Sublist.refl _, fun _ _ _ _ _ => rfl⟩
  · next node hsome =>
    obtain ⟨p, o⟩ := node
    obtain ⟨outputs, heq, his⟩ := hunlink
    rw [h.list.eraseP_eq_filter hsome] at his
    have hpowering := h.remove (List.mem_of_find?_eq_some hsome) his
    rw [heq]
    dsimp only
    rw [destroyPower_eq]
    have hpowers : (State.destroyPower o.power { s with outputs }).powers =
        (s.destroyPower o.power).powers :=
      funext fun n => by rw [destroyPower_powers, destroyPower_powers]
    rw [hpowers]
    refine ⟨_, _, _, os.filter (·.1 ≠ p), rfl, hpowering, List.filter_sublist, ?_⟩
    intro p' o' n hmem' hn
    obtain ⟨power, hpower, -, -⟩ := hpowering.power p' o' n hmem' hn
    dsimp only at hpower
    rw [destroyPower_powers] at hpower ⊢
    split_ifs at hpower ⊢
    rfl

/-- The list when a node has another object for its power. -/
def withPower (p : ℕ) (power : Option ℕ) (os : List (ℕ × PowerOutput)) : List (ℕ × PowerOutput) :=
  os.map fun node => if node.1 = p then (node.1, { node.2 with power }) else node

theorem mem_withPower {p p' : ℕ} {power : Option ℕ} {o' : PowerOutput} :
    (p', o') ∈ withPower p power os ↔
      ∃ o, (p', o) ∈ os ∧ o' = if p' = p then { o with power } else o := by
  rw [withPower, List.mem_map]
  constructor
  · rintro ⟨⟨p'', o⟩, hmem, heq⟩
    dsimp only at heq
    split_ifs at heq with hp
    · obtain ⟨rfl, rfl⟩ := Prod.mk.inj heq
      exact ⟨o, hmem, by rw [if_pos hp]⟩
    · obtain ⟨rfl, rfl⟩ := Prod.mk.inj heq
      exact ⟨o, hmem, by rw [if_neg hp]⟩
  · rintro ⟨o, hmem, rfl⟩
    refine ⟨(p', o), hmem, ?_⟩
    dsimp only
    split_ifs <;> rfl

theorem map_fst_withPower (p : ℕ) (power : Option ℕ) :
    (withPower p power os).map Prod.fst = os.map Prod.fst := by
  rw [withPower, List.map_map]
  refine List.map_congr_left fun node _ => ?_
  rw [Function.comp_apply]
  split_ifs <;> rfl

/-- A node gets another object, or none: the old one is destroyed, and the new one knows the node.
-/
theorem Powering.setPower (h : Powering s os) {p : ℕ} {o : PowerOutput} (hmem : (p, o) ∈ os)
    (power : Option ℕ) (powers : ℕ → Option Power) {objects : ℕ} (hle : s.objects ≤ objects)
    (hother : ∀ n, o.power ≠ some n → power ≠ some n → powers n = s.powers n)
    (hold : ∀ n, o.power = some n → powers n = none)
    (hnew : ∀ n, power = some n → n < objects ∧ s.powers n = none ∧
      ∃ a, powers n = some a ∧ a.data = p ∧ a.output = o.output) :
    Powering { s with outputs := s.outputs.modify p ({ · with power }), powers, objects }
      (withPower p power os) where
  list := h.list.modify p fun o => { o with power }
  below p' hp' := by
    rw [map_fst_withPower] at hp'
    exact h.below p' hp'
  power p' o' n hmem' hn := by
    obtain ⟨o'', hin, rfl⟩ := mem_withPower.1 hmem'
    split_ifs at hn ⊢ with hp
    · obtain ⟨-, -, a, ha, hdata, houtput⟩ := hnew n hn
      subst hp
      rw [h.list.value_unique hin hmem]
      exact ⟨a, ha, hdata, houtput⟩
    · obtain ⟨a, ha, hdata, houtput⟩ := h.power p' o'' n hin hn
      refine ⟨a, (hother n (fun heq => hp ?_) fun heq => ?_).trans ha, hdata, houtput⟩
      · obtain ⟨b, hb, hdata', -⟩ := h.power p o n hmem heq
        rw [← hdata, ← hdata', Option.some.inj (ha.symm.trans hb)]
      · exact absurd (ha.symm.trans (hnew n heq).2.1) (Option.some_ne_none a)
  powerOwned n a ha := by
    by_cases hn : power = some n
    · obtain ⟨hlt, -, b, hb, hdata, -⟩ := hnew n hn
      refine ⟨hlt, { o with power }, mem_withPower.2 ⟨o, ?_, ?_⟩, hn⟩
      · rw [Option.some.inj (ha.symm.trans hb), hdata]
        exact hmem
      · rw [Option.some.inj (ha.symm.trans hb), if_pos hdata]
    · have ho : o.power ≠ some n := fun heq =>
        absurd ((hold n heq).symm.trans ha) (Option.some_ne_none a).symm
      obtain ⟨hlt, o', hin, ho'⟩ := h.powerOwned n a ((hother n ho hn).symm.trans ha)
      refine ⟨hlt.trans_le hle, o', mem_withPower.2 ⟨o', hin, ?_⟩, ho'⟩
      rw [if_neg fun heq => ho ?_]
      have hsame : (p, o') ∈ os := heq ▸ hin
      rw [h.list.value_unique hmem hsame, ho']
  bound p' o' hmem' := by
    obtain ⟨o'', hin, rfl⟩ := mem_withPower.1 hmem'
    have hbound := h.bound p' o'' hin
    split_ifs
    · exact hbound
    · exact hbound
  boundOwned n hn := by
    obtain ⟨hlt, p', o', hin, ho'⟩ := h.boundOwned n hn
    refine ⟨hlt.trans_le hle, p', _, mem_withPower.2 ⟨o', hin, rfl⟩, ?_⟩
    split_ifs
    · exact ho'
    · exact ho'
  distinct := by
    have hmap : (withPower p power os).map (·.2.output) = os.map (·.2.output) := by
      rw [withPower, List.map_map]
      refine List.map_congr_left fun node _ => ?_
      rw [Function.comp_apply]
      split_ifs <;> rfl
    rw [hmap]
    exact h.distinct

theorem setMode_powers (n m : ℕ) (s : State) : (setMode n s).powers m =
    (s.powers m).map fun a => if m = n then { a with mode := some s.wantOn } else a := by
  rw [setMode]
  dsimp only
  by_cases hm : m = n
  · rw [hm, Function.update_self]
    simp
  · rw [Function.update_of_ne hm]
    simp [hm]

/-- An object is told a mode. -/
theorem Powering.setMode (h : Powering s os) (n : ℕ) : Powering (setMode n s) os := by
  refine { h with power := fun p o m hmem hm => ?_, powerOwned := fun m a ha => ?_ }
  · obtain ⟨a, ha, hdata, houtput⟩ := h.power p o m hmem hm
    rw [setMode_powers, ha]
    refine ⟨_, rfl, ?_, ?_⟩
    · split_ifs <;> exact hdata
    · split_ifs <;> exact houtput
  · rw [setMode_powers] at ha
    obtain ⟨b, hb, rfl⟩ := Option.map_eq_some_iff.1 ha
    obtain ⟨hlt, o, hmem, ho⟩ := h.powerOwned m b hb
    split_ifs
    · exact ⟨hlt, o, hmem, ho⟩
    · exact ⟨hlt, o, hmem, ho⟩

/-- The output was told to be on, or off. -/
def Told (s : State) (on : Bool) (o : PowerOutput) : Prop :=
  ∃ n a, o.power = some n ∧ s.powers n = some a ∧ a.mode = some on

theorem Told.setMode {o : PowerOutput} (h : Told s s.wantOn o) (n : ℕ) :
    Told (setMode n s) s.wantOn o := by
  obtain ⟨m, a, ho, ha, hmode⟩ := h
  refine ⟨m, _, ho, by rw [setMode_powers, ha]; rfl, ?_⟩
  split_ifs
  · rfl
  · exact hmode

theorem told_setMode {o : PowerOutput} {n : ℕ} {a : Power} (ho : o.power = some n)
    (ha : s.powers n = some a) : Told (setMode n s) s.wantOn o :=
  ⟨n, { a with mode := some s.wantOn }, ho, by rw [setMode_powers, ha, Option.map_some, if_pos rfl],
    rfl⟩

/-- The next addresses are those that they were. -/
def SameNext (s s' : State) : Prop := ∀ i, nextOutput s' i = nextOutput s i

theorem nextOutput_modify (p : ℕ) (f : PowerOutput → PowerOutput) {s s' : State}
    (h : s'.outputs = s.outputs.modify p f) : SameNext s s' := by
  intro i
  rw [nextOutput, nextOutput, h]
  by_cases hi : i = p
  · rw [hi, Linked.modify_nodes_self, Option.map_map]
    rfl
  · rw [Linked.modify_nodes_of_ne hi]

/-- `output_apply` -/
theorem Powering.apply (h : Powering s os) {p : ℕ} {o : PowerOutput} (hmem : (p, o) ∈ os) :
    ∃ outputs powers objects os', outputApply p s = { s with outputs, powers, objects } ∧
      s.objects ≤ objects ∧ Powering (outputApply p s) os' ∧
      os'.map Prod.fst = os.map Prod.fst ∧ SameNext s (outputApply p s) ∧
      (s.powerManager = true → ∀ q o', (q, o') ∈ os' →
        (q = p ∨ ∃ o, (q, o) ∈ os ∧ Told s s.wantOn o) → Told (outputApply p s) s.wantOn o') := by
  obtain ⟨next, hnode⟩ := h.list.node_of_mem hmem
  rw [outputApply, hnode]
  dsimp only
  split_ifs with hmanager
  · split
    · next n hn =>
      obtain ⟨a, ha, -, -⟩ := h.power p o n hmem hn
      refine ⟨s.outputs, _, s.objects, os, rfl, Nat.le_refl _, h.setMode n, rfl, fun _ => rfl, ?_⟩
      rintro - q o' hq (rfl | ⟨o'', hq', htold⟩)
      · rw [h.list.value_unique hq hmem]
        exact told_setMode hn ha
      · rw [h.list.value_unique hq hq']
        exact htold.setMode n
    · next hnone =>
      have hfresh : s.powers s.objects = none := by
        rcases ha : s.powers s.objects with _ | a
        · rfl
        · exact absurd (h.powerOwned _ a ha).1 (Nat.lt_irrefl _)
      have hset := h.setPower hmem (some s.objects) (Function.update s.powers s.objects
          (some { output := o.output, data := p })) (Nat.le_succ s.objects)
        (fun n _ hn => Function.update_of_ne (fun heq => hn (by rw [heq])) _ _)
        (fun n hn => absurd (hnone.symm.trans hn) (Option.some_ne_none n).symm)
        (fun n hn => by
          obtain rfl := Option.some.inj hn
          exact ⟨Nat.lt_succ_self _, hfresh, _, Function.update_self .., rfl, rfl⟩)
      refine ⟨_, _, _, withPower p (some s.objects) os, rfl, Nat.le_succ _, hset.setMode s.objects,
        map_fst_withPower p _,
        nextOutput_modify p (fun o => { o with power := some s.objects }) rfl, ?_⟩
      rintro - q o' hq hcases
      obtain ⟨o'', hin, rfl⟩ := mem_withPower.1 hq
      by_cases hqp : q = p
      · rw [if_pos hqp]
        exact told_setMode rfl (Function.update_self ..)
      · obtain ⟨o₀, hin₀, m, a, ho, ha, hmode⟩ := hcases.resolve_left hqp
        rw [if_neg hqp, h.list.value_unique hin hin₀]
        have hpowers : Function.update s.powers s.objects
            (some { output := o.output, data := p }) m = some a :=
          (Function.update_of_ne (h.powerOwned m a ha).1.ne _ _).trans ha
        exact Told.setMode (s := { s with
          objects := s.objects + 1
          powers := Function.update s.powers s.objects (some { output := o.output, data := p })
          outputs := s.outputs.modify p fun o => { o with power := some s.objects } })
          ⟨m, a, ho, hpowers, hmode⟩ s.objects
  · exact ⟨s.outputs, s.powers, s.objects, os, rfl, Nat.le_refl _, h, rfl, fun _ => rfl,
      fun htrue => absurd htrue hmanager⟩

/-- What the loop over the outputs changes, and what all outputs that it has passed were told. -/
structure Applied (s t : State) (os : List (ℕ × PowerOutput)) (passed : List ℕ) : Prop where
  eq : ∃ outputs powers objects, t = { s with outputs, powers, objects } ∧ s.objects ≤ objects
  next : SameNext s t
  powering : ∃ os', Powering t os' ∧ os'.map Prod.fst = os.map Prod.fst ∧
    (s.powerManager = true → ∀ q o', (q, o') ∈ os' → q ∈ passed → Told t s.wantOn o')

theorem Applied.step {t : State} {passed : List ℕ} (h : Applied s t os passed) {p : ℕ}
    (hp : p ∈ os.map Prod.fst) : Applied s (outputApply p t) os (p :: passed) := by
  obtain ⟨⟨outputs, powers, objects, rfl, hobjects⟩, hnext, os', hpowering, hfst, htold⟩ := h
  rw [← hfst] at hp
  obtain ⟨⟨p, o⟩, hmem, rfl⟩ := List.mem_map.1 hp
  obtain ⟨outputs', powers', objects', os'', heq, hle, hpowering', hfst', hnext', htold'⟩ :=
    hpowering.apply hmem
  refine ⟨⟨outputs', powers', objects', heq, hobjects.trans hle⟩,
    fun i => (hnext' i).trans (hnext i), os'', hpowering', hfst'.trans hfst, ?_⟩
  rintro hmanager q o'' hq hpassed
  refine htold' hmanager q o'' hq ?_
  rcases List.mem_cons.1 hpassed with hqp | hpassed
  · exact Or.inl hqp
  · refine Or.inr ?_
    have hin : q ∈ os'.map Prod.fst := hfst' ▸ List.mem_map.2 ⟨_, hq, rfl⟩
    obtain ⟨⟨q, o'⟩, hq', rfl⟩ := List.mem_map.1 hin
    exact ⟨o', hq', htold hmanager q o' hq' hpassed⟩

theorem Applied.foldl {t : State} {passed : List ℕ} (h : Applied s t os passed) (ps : List ℕ)
    (hps : ∀ p ∈ ps, p ∈ os.map Prod.fst) :
    Applied s (ps.foldl (fun t p => outputApply p t) t) os (ps.reverse ++ passed) := by
  induction ps generalizing t passed with
  | nil => exact h
  | cons p ps ih =>
    rw [List.foldl_cons, List.reverse_cons, List.append_assoc, List.singleton_append]
    exact ih (h.step (hps p List.mem_cons_self)) fun q hq => hps q (List.mem_cons_of_mem _ hq)

/-- `singularity_output_power_set` -/
theorem Powering.powerSet (h : Powering s os) (on : Bool) :
    ∃ outputs powers objects os',
      outputPowerSet on s = { s with wantOn := on, outputs, powers, objects } ∧
      s.objects ≤ objects ∧ Powering (outputPowerSet on s) os' ∧
      os'.map Prod.fst = os.map Prod.fst ∧
      (s.powerManager = true → ∀ q o', (q, o') ∈ os' → Told (outputPowerSet on s) on o') := by
  have hon : Powering { s with wantOn := on } os :=
    h.congr rfl rfl rfl (Nat.le_refl _) (Nat.le_refl _)
  have hstart : Applied { s with wantOn := on } { s with wantOn := on } os [] :=
    ⟨⟨s.outputs, s.powers, s.objects, rfl, Nat.le_refl _⟩, fun _ => rfl, os, hon, rfl,
      fun _ _ _ _ hpassed => absurd hpassed List.not_mem_nil⟩
  have hrounds : os.length ≤ s.allocated + 1 := (h.list.length_le h.below).trans (Nat.le_succ _)
  have hloop := h.list.reached.loop nextOutput outputApply hrounds
    (P := fun t => ∃ passed, Applied { s with wantOn := on } t os passed)
    (fun i node t hi ⟨passed, ht⟩ =>
      ⟨_, ht.step (List.mem_map.2 ⟨_, h.list.mem_of_node hi, rfl⟩)⟩)
    (fun i node t hi ⟨passed, ht⟩ => by
      have hnext := (ht.step (List.mem_map.2 ⟨_, h.list.mem_of_node hi, rfl⟩)).next i
      rw [hnext, nextOutput]
      dsimp only
      rw [hi]
      rfl)
    (s := { s with wantOn := on }) ⟨[], hstart⟩
  have happlied := hstart.foldl (os.map Prod.fst) fun p hp => hp
  obtain ⟨⟨outputs, powers, objects, heq, hle⟩, -, os', hpowering, hfst, htold⟩ := happlied
  rw [outputPowerSet, hloop]
  refine ⟨outputs, powers, objects, os', heq, hle, hpowering, hfst, fun hmanager q o' hq => ?_⟩
  refine htold hmanager q o' hq (List.mem_append_left _ (List.mem_reverse.2 ?_))
  rw [← hfst]
  exact List.mem_map.2 ⟨_, hq, rfl⟩

/-- What becomes of an output: it keeps its object, which keeps its mode, or it has none since one
failed, or it is new. -/
def Follows (s s' : State) (os os' : List (ℕ × PowerOutput)) (failed : Prop) : Prop :=
  ∀ p o', (p, o') ∈ os' → s.allocated ≤ p ∨ ∃ o, (p, o) ∈ os ∧
    (o' = o ∧ (∀ n, o.power = some n → s'.powers n = s.powers n) ∨ o'.power = none ∧ failed)

theorem Follows.refl {failed : Prop} (h : s'.powers = s.powers) : Follows s s' os os failed :=
  fun _ o hmem => Or.inr ⟨o, hmem, Or.inl ⟨rfl, fun n _ => congrFun h n⟩⟩

/-- `power_failed` -/
theorem Powering.failed (h : Powering s os) (n : ℕ) :
    ∃ outputs powers os', powerFailed n s = { s with outputs, powers } ∧
      Powering (powerFailed n s) os' ∧ Follows s (powerFailed n s) os os' True := by
  rw [powerFailed]
  split
  · exact ⟨s.outputs, s.powers, os, rfl, h, .refl rfl⟩
  · next a ha =>
    obtain ⟨-, o, hmem, ho⟩ := h.powerOwned n a ha
    obtain ⟨next, hnode⟩ := h.list.node_of_mem hmem
    have hset := h.setPower hmem none (s.destroyPower (some n)).powers
      (Nat.le_refl _)
      (fun m hm _ => by rw [destroyPower_powers, if_neg fun heq => hm (ho.trans heq)])
      (fun m hm => by rw [destroyPower_powers, if_pos (ho.symm.trans hm)])
      (fun m hm => absurd hm nofun)
    have houtputs : (s.destroyPower (some n)).outputs = s.outputs := rfl
    dsimp only
    rw [houtputs, hnode]
    refine ⟨_, _, _, rfl, hset, fun p' o' hmem' => Or.inr ?_⟩
    obtain ⟨o'', hin, rfl⟩ := mem_withPower.1 hmem'
    refine ⟨o'', hin, ?_⟩
    split_ifs with hp
    · exact Or.inr ⟨rfl, trivial⟩
    · refine Or.inl ⟨rfl, fun m hm => ?_⟩
      show (s.destroyPower (some n)).powers m = s.powers m
      rw [destroyPower_powers, if_neg fun heq => hp ?_]
      obtain ⟨b, hb, hdata, -⟩ := h.power p' o'' m hin hm
      rw [← Option.some.inj heq, ha] at hb
      rw [← hdata, Option.some.inj hb]

end

/-! ### Runs -/

/-- What holds of a state that is reached, and of what was planned. -/
structure Kept (s : State) (plan : Plan) : Prop where
  intact : s.broken = false
  watching : ∃ ws, Watching s ws ∧ plan.armed = ws.map fun node => armedOf s node.2
  powering : ∃ os, Powering s os
  seat : plan.seat = s.seat
  notifier : plan.notifier = s.notifier
  notifierVersion : plan.notifierVersion = s.notifierVersion

/-- Where neither the watches nor what is known of the compositor change. -/
theorem Kept.congr {s s' : State} {plan : Plan} (h : Kept s plan)
    (heq : ∃ outputs powers bound allocated objects wantOn powerManager, s' = { s with
      outputs, powers, bound, allocated, objects, wantOn, powerManager } ∧
      s.allocated ≤ allocated ∧ s.objects ≤ objects)
    (hpowering : ∃ os, Powering s' os) : Kept s' plan := by
  obtain ⟨outputs, powers, bound, allocated, objects, wantOn, powerManager, rfl, hallocated,
    hobjects⟩ := heq
  obtain ⟨ws, hws, harmed⟩ := h.watching
  exact ⟨h.intact, ⟨ws, hws.congr rfl rfl hallocated hobjects, harmed⟩, hpowering, h.seat,
    h.notifier, h.notifierVersion⟩

theorem Kept.notification {s : State} {plan : Plan} (h : Kept s plan) (idled : Bool) (n : ℕ) :
    ∃ calls, notificationEvent idled n s = { s with calls } := by
  obtain ⟨ws, hws, -⟩ := h.watching
  rw [notificationEvent]
  split
  · exact ⟨s.calls, rfl⟩
  · next o ho =>
    obtain ⟨-, w, hmem, -⟩ := hws.owned n o ho
    obtain ⟨next, hnode⟩ := hws.list.node_of_mem hmem
    rw [hnode]
    dsimp only
    split
    · exact ⟨_, rfl⟩
    · exact ⟨s.calls, rfl⟩

/-- **The step lemma.** -/
theorem Kept.step {s : State} {plan : Plan} (h : Kept s plan) (e : Event) :
    Kept (step s e) (plan.step e) := by
  obtain ⟨ws, hws, harmed⟩ := h.watching
  obtain ⟨os, hos⟩ := h.powering
  cases e with
  | global name interface version calloc =>
    cases interface with
    | idleNotifier =>
      exact ⟨h.intact, ⟨ws, hws.congr rfl rfl (Nat.le_refl _) (Nat.le_refl _), harmed⟩,
        ⟨os, hos.congr rfl rfl rfl (Nat.le_refl _) (Nat.le_refl _)⟩, h.seat, rfl, rfl⟩
    | seat =>
      exact ⟨h.intact, ⟨ws, hws.congr rfl rfl (Nat.le_refl _) (Nat.le_refl _), harmed⟩,
        ⟨os, hos.congr rfl rfl rfl (Nat.le_refl _) (Nat.le_refl _)⟩, rfl, h.notifier,
        h.notifierVersion⟩
    | outputPowerManager =>
      exact h.congr ⟨_, _, _, _, _, _, _, rfl, Nat.le_refl _, Nat.le_refl _⟩
        ⟨os, hos.congr rfl rfl rfl (Nat.le_refl _) (Nat.le_refl _)⟩
    | output =>
      rw [IdleNotify.step, registryGlobal]
      split_ifs
      · exact h.congr ⟨_, _, _, _, _, _, _, rfl, Nat.le_succ _, Nat.le_succ _⟩
          ⟨_, hos.push name⟩
      · exact h
    | other => exact h
  | globalRemove name =>
    obtain ⟨outputs, powers, bound, os', heq, hpowering, -, -⟩ := hos.globalRemove name
    refine h.congr ⟨outputs, powers, bound, s.allocated, s.objects, s.wantOn, s.powerManager, heq,
      Nat.le_refl _, Nat.le_refl _⟩ ⟨os', hpowering⟩
  | notification idled n =>
    obtain ⟨calls, heq⟩ := h.notification idled n
    rw [IdleNotify.step, heq]
    exact ⟨h.intact, ⟨ws, hws.congr rfl rfl (Nat.le_refl _) (Nat.le_refl _), harmed⟩,
      ⟨os, hos.congr rfl rfl rfl (Nat.le_refl _) (Nat.le_refl _)⟩, h.seat, h.notifier,
      h.notifierVersion⟩
  | powerFailed n =>
    obtain ⟨outputs, powers, os', heq, hpowering, -⟩ := hos.failed n
    exact h.congr ⟨outputs, powers, s.bound, s.allocated, s.objects, s.wantOn, s.powerManager, heq,
      Nat.le_refl _, Nat.le_refl _⟩ ⟨os', hpowering⟩
  | watch id timeoutMs inputOnly callback calloc =>
    obtain ⟨watches, notifications, allocated, objects, heq, hallocated, hobjects, ws', hws',
      harmed'⟩ := hws.watch id timeoutMs inputOnly callback calloc
    have hos' : Powering (idleWatch id timeoutMs inputOnly callback calloc s) os := by
      rw [heq]
      exact hos.congr rfl rfl rfl hallocated hobjects
    rw [IdleNotify.step, Plan.step, h.seat, h.notifier, h.notifierVersion, harmed]
    dsimp only at harmed' ⊢
    split_ifs at harmed' ⊢ with hcond
    · refine ⟨by rw [heq]; exact h.intact, ⟨ws', hws', harmed'.symm⟩, ⟨os, hos'⟩, ?_, ?_, ?_⟩
      all_goals rw [heq]
    · refine ⟨by rw [heq]; exact h.intact, ⟨ws', hws', harmed'.symm⟩, ⟨os, hos'⟩, ?_, ?_, ?_⟩
      all_goals rw [heq]
  | unwatch id =>
    obtain ⟨watches, notifications, heq, hws', harmed'⟩ := hws.unwatch id
    have hos' : Powering (idleUnwatch id s) os := by
      rw [heq]
      exact hos.congr rfl rfl rfl (Nat.le_refl _) (Nat.le_refl _)
    rw [IdleNotify.step, Plan.step, harmed]
    refine ⟨by rw [heq]; exact h.intact, ⟨_, hws', harmed'.symm⟩, ⟨os, hos'⟩, ?_, ?_, ?_⟩
    all_goals rw [heq]
    exacts [h.seat, h.notifier, h.notifierVersion]
  | powerSet on =>
    obtain ⟨outputs, powers, objects, os', heq, hobjects, hpowering, -, -⟩ := hos.powerSet on
    exact h.congr ⟨outputs, powers, s.bound, s.allocated, objects, on, s.powerManager, heq,
      Nat.le_refl _, hobjects⟩ ⟨os', hpowering⟩

theorem kept_init : Kept {} {} where
  intact := rfl
  watching := ⟨[], ⟨Linked.is_empty, nofun, List.nodup_nil, nofun, nofun⟩, rfl⟩
  powering := ⟨[], Linked.is_empty, nofun, nofun, nofun, nofun, nofun, List.nodup_nil⟩
  seat := rfl
  notifier := rfl
  notifierVersion := rfl

theorem Kept.run {s : State} {plan : Plan} (h : Kept s plan) (es : List Event) :
    Kept (Transition.run IdleNotify.step s es) (Transition.run Plan.step plan es) := by
  induction es generalizing s plan with
  | nil => exact h
  | cons e es ih => exact ih (h.step e)

/-- **No memory is used after it was freed, and none is lost.** In every run, each node that is
allocated is in its list, each object that was not destroyed knows a node that has it, and the nodes
have the objects that they need. -/
theorem memory_sound (es : List Event) : Sound (Transition.run step {} es) := by
  have h := kept_init.run es
  obtain ⟨ws, hws, -⟩ := h.watching
  exact ⟨h.intact, ⟨ws, hws⟩, h.powering⟩

/-- An object of the compositor is the one of a watch: it has the timeout that was asked for, and
its events call the callback. -/
def Serves (s : State) (a : Armed) (n : ℕ) : Prop :=
  ∃ o node, s.notifications n = some o ∧ o.timeoutMs = a.timeoutMs ∧ o.inputOnly = a.inputOnly ∧
    s.watches.nodes o.data = some node ∧ node.value.id = a.id ∧
    ∀ idled, notificationEvent idled n s =
      { s with calls := s.calls ++ (a.callback.map fun c => (c, a.id, idled)).toList }

theorem Watching.serves {s : State} {ws : List (ℕ × IdleWatch)} (h : Watching s ws) {p : ℕ}
    {w : IdleWatch} (hmem : (p, w) ∈ ws) : Serves s (armedOf s w) w.notification := by
  obtain ⟨o, ho, rfl⟩ := h.notification p w hmem
  obtain ⟨next, hnode⟩ := h.list.node_of_mem hmem
  have harmed : armedOf s w = ⟨w.id, o.timeoutMs, o.inputOnly, w.callback⟩ := by
    rw [armedOf, ho]
    rfl
  rw [harmed]
  refine ⟨o, _, ho, rfl, rfl, hnode, rfl, fun idled => ?_⟩
  rw [notificationEvent, ho]
  dsimp only
  rw [hnode]
  dsimp only
  cases w.callback with
  | none => exact congrArg (fun calls => { s with calls }) (List.append_nil _).symm
  | some c => rfl

/-- **What is armed is what was planned.** The last watch with a number is armed until it is
disarmed. In every run, the objects of the compositor are those of the watches that are armed, one
for each. -/
theorem armed_refines (es : List Event) :
    let s := Transition.run step {} es
    let plan := Transition.run Plan.step {} es
    (plan.armed.map (·.id)).Nodup ∧
      (∀ a ∈ plan.armed, ∃! n, Serves s a n) ∧
      ∀ n, s.notifications n ≠ none → ∃ a ∈ plan.armed, Serves s a n := by
  intro s plan
  obtain ⟨ws, hws, harmed⟩ := (kept_init.run es).watching
  have harmed : plan.armed = ws.map fun node => armedOf s node.2 := harmed
  rw [harmed]
  refine ⟨?_, fun a ha => ?_, fun n hn => ?_⟩
  · rw [List.map_map]
    exact hws.ids
  · obtain ⟨⟨p, w⟩, hmem, rfl⟩ := List.mem_map.1 ha
    refine ⟨w.notification, hws.serves hmem, fun n hserves => ?_⟩
    obtain ⟨o, node, ho, -, -, hnode, hid, -⟩ := hserves
    obtain ⟨-, w', hmem', rfl⟩ := hws.owned n o ho
    have hvalue := hws.list.value_unique (hws.list.mem_of_node hnode) hmem'
    rw [hvalue] at hid
    have hsame := List.inj_on_of_nodup_map hws.ids hmem' hmem hid
    exact congrArg (fun node : ℕ × IdleWatch => node.2.notification) hsame
  · obtain ⟨o, ho⟩ := Option.ne_none_iff_exists'.1 hn
    obtain ⟨-, w, hmem, rfl⟩ := hws.owned n o ho
    exact ⟨_, List.mem_map.2 ⟨_, hmem, rfl⟩, hws.serves hmem⟩

/-! ### The power of the outputs -/

/-- What becomes of the outputs in a step that switches none. -/
theorem Powering.step {s : State} {os : List (ℕ × PowerOutput)} (h : Powering s os) {plan : Plan}
    (hkept : Kept s plan) {e : Event} (he : ∀ on, e ≠ .powerSet on) :
    ∃ os', Powering (step s e) os' ∧ s.allocated ≤ (step s e).allocated ∧
      Follows s (step s e) os os' (∃ n, e = .powerFailed n) := by
  obtain ⟨ws, hws, -⟩ := hkept.watching
  cases e with
  | global name interface version calloc =>
    cases interface with
    | output =>
      rw [IdleNotify.step, registryGlobal]
      split_ifs
      · refine ⟨_, h.push name, Nat.le_succ _, fun p o' hmem => ?_⟩
        rcases List.mem_cons.1 hmem with heq | hmem
        · exact Or.inl (congrArg Prod.fst heq).ge
        · exact Or.inr ⟨o', hmem, Or.inl ⟨rfl, fun _ _ => rfl⟩⟩
      · exact ⟨os, h, Nat.le_refl _, .refl rfl⟩
    | _ =>
      exact ⟨os, h.congr rfl rfl rfl (Nat.le_refl _) (Nat.le_refl _), Nat.le_refl _, .refl rfl⟩
  | globalRemove name =>
    obtain ⟨outputs, powers, bound, os', heq, hpowering, hsub, hpowers⟩ := h.globalRemove name
    refine ⟨os', hpowering, ?_, fun p o' hmem => Or.inr ⟨o', hsub.subset hmem, Or.inl ⟨rfl, ?_⟩⟩⟩
    · rw [IdleNotify.step, heq]
    · intro n hn
      rw [IdleNotify.step, heq]
      exact hpowers p o' n hmem hn
  | notification idled n =>
    obtain ⟨calls, heq⟩ := hkept.notification idled n
    rw [IdleNotify.step, heq]
    exact ⟨os, h.congr rfl rfl rfl (Nat.le_refl _) (Nat.le_refl _), Nat.le_refl _, .refl rfl⟩
  | powerFailed n =>
    obtain ⟨outputs, powers, os', heq, hpowering, hfollows⟩ := h.failed n
    refine ⟨os', hpowering, ?_, fun p o' hmem => (hfollows p o' hmem).imp_right ?_⟩
    · rw [IdleNotify.step, heq]
    · rintro ⟨o, hin, hcases⟩
      exact ⟨o, hin, hcases.imp_right fun hnone => ⟨hnone.1, n, rfl⟩⟩
  | watch id timeoutMs inputOnly callback calloc =>
    obtain ⟨watches, notifications, allocated, objects, heq, hallocated, hobjects, -⟩ :=
      hws.watch id timeoutMs inputOnly callback calloc
    rw [IdleNotify.step, heq]
    exact ⟨os, h.congr rfl rfl rfl hallocated hobjects, hallocated, .refl rfl⟩
  | unwatch id =>
    obtain ⟨watches, notifications, heq, -⟩ := hws.unwatch id
    rw [IdleNotify.step, heq]
    exact ⟨os, h.congr rfl rfl rfl (Nat.le_refl _) (Nat.le_refl _), Nat.le_refl _, .refl rfl⟩
  | powerSet on => exact absurd rfl (he on)

/-- The outputs below an address were told a mode, or have no object when one may have failed. -/
def Obeyed (s : State) (on : Bool) (below : ℕ) (failed : Prop) : Prop :=
  ∃ os, Powering s os ∧ ∀ p o, (p, o) ∈ os → p < below → Told s on o ∨ o.power = none ∧ failed

theorem Obeyed.step {s : State} {on : Bool} {below : ℕ} {failed : Prop}
    (h : Obeyed s on below failed) {plan : Plan} (hkept : Kept s plan) (hle : below ≤ s.allocated)
    {e : Event} (he : ∀ on, e ≠ .powerSet on) :
    Obeyed (step s e) on below (failed ∨ ∃ n, e = .powerFailed n) ∧
      below ≤ (IdleNotify.step s e).allocated := by
  obtain ⟨os, hos, hall⟩ := h
  obtain ⟨os', hos', hallocated, hfollows⟩ := hos.step hkept he
  refine ⟨⟨os', hos', fun p o' hmem hp => ?_⟩, hle.trans hallocated⟩
  rcases hfollows p o' hmem with hnew | ⟨o, hin, ⟨rfl, hpowers⟩ | ⟨hnone, hfailed⟩⟩
  · omega
  · rcases hall p o' hin hp with ⟨n, a, ho, ha, hmode⟩ | ⟨hnone, hfailed⟩
    · exact Or.inl ⟨n, a, ho, (hpowers n ho).trans ha, hmode⟩
    · exact Or.inr ⟨hnone, Or.inl hfailed⟩
  · exact Or.inr ⟨hnone, Or.inr hfailed⟩

theorem Obeyed.run {s : State} {on : Bool} {below : ℕ} {failed : Prop}
    (h : Obeyed s on below failed) {plan : Plan} (hkept : Kept s plan) (hle : below ≤ s.allocated)
    {es : List Event} (hes : ∀ e ∈ es, ∀ on, e ≠ .powerSet on) :
    Obeyed (Transition.run IdleNotify.step s es) on below (failed ∨ ∃ n, .powerFailed n ∈ es) := by
  induction es generalizing s plan failed with
  | nil =>
    obtain ⟨os, hos, hall⟩ := h
    exact ⟨os, hos, fun p o hmem hp => (hall p o hmem hp).imp_right fun hnone =>
      ⟨hnone.1, Or.inl hnone.2⟩⟩
  | cons e es ih =>
    obtain ⟨hstep, hle'⟩ := h.step hkept hle (hes e List.mem_cons_self)
    obtain ⟨os, hos, hall⟩ := ih hstep (hkept.step e) hle' fun e he =>
      hes e (List.mem_cons_of_mem _ he)
    refine ⟨os, hos, fun p o hmem hp => (hall p o hmem hp).imp_right fun hnone => ⟨hnone.1, ?_⟩⟩
    rcases hnone.2 with (hfailed | ⟨n, rfl⟩) | ⟨n, hn⟩
    · exact Or.inl hfailed
    · exact Or.inr ⟨n, List.mem_cons_self⟩
    · exact Or.inr ⟨n, List.mem_cons_of_mem _ hn⟩

/-- **The outputs obey.** After the outputs were switched, and until they are switched again, each
output that was there and has not been removed is in the mode that it was told, unless its object
failed. -/
theorem outputs_obey (es : List Event) (on : Bool) {es' : List Event}
    (hes : ∀ e ∈ es', ∀ on', e ≠ .powerSet on')
    (hmanager : (Transition.run step {} es).powerManager = true) {p : ℕ}
    {node : Linked.Node PowerOutput}
    (hnode : (Transition.run step {} (es ++ .powerSet on :: es')).outputs.nodes p = some node)
    (hp : p < (Transition.run step {} es).allocated) :
    Told (Transition.run step {} (es ++ .powerSet on :: es')) on node.value ∨
      node.value.power = none ∧ ∃ n, .powerFailed n ∈ es' := by
  have hkept := kept_init.run es
  obtain ⟨os, hos⟩ := hkept.powering
  obtain ⟨outputs, powers, objects, os', heq, -, hos', -, htold⟩ := hos.powerSet on
  have hobeyed : Obeyed (step (Transition.run step {} es) (.powerSet on)) on
      (Transition.run step {} es).allocated False :=
    ⟨os', hos', fun p o hmem _ => Or.inl (htold hmanager p o hmem)⟩
  have hle : (Transition.run step {} es).allocated ≤
      (step (Transition.run step {} es) (.powerSet on)).allocated := by
    rw [step, heq]
  obtain ⟨os'', hos'', hall⟩ := hobeyed.run (hkept.step (.powerSet on)) hle hes
  rw [Transition.run_append, Transition.run_cons] at hnode ⊢
  refine (hall p node.value (hos''.list.mem_of_node hnode) hp).imp_right fun hnone => ⟨hnone.1, ?_⟩
  exact hnone.2.resolve_left not_false

/-- Two outputs that are switched off, of which one is removed before a third appears. -/
theorem outputs_obey_blanked :
    let es : List Event := [.global 3 .outputPowerManager 1 true, .global 5 .output 4 true,
      .global 6 .output 4 true]
    let es' : List Event := [.globalRemove 5, .global 7 .output 4 true]
    ∃ node, (Transition.run step {} (es ++ .powerSet false :: es')).outputs.nodes 1 = some node ∧
      (Told (Transition.run step {} (es ++ .powerSet false :: es')) false node.value ∨
        node.value.power = none ∧ ∃ n, .powerFailed n ∈ es') := by
  refine ⟨⟨⟨6, 1, some 2⟩, none⟩, by rfl, outputs_obey (p := 1) _ false ?_ rfl (by rfl) (by decide)⟩
  intro e he on'
  simp only [List.mem_cons, List.not_mem_nil, or_false] at he
  rcases he with rfl | rfl <;> exact nofun

/-! ### The watches of the manager -/

/-- The number of a watch of the manager. -/
def code : Idle.WatchId → ℤ
  | .dim => 1
  | .blank => 2
  | .lock => 3
  | .suspend => 4
  | .probe => 5

theorem code_injective : Function.Injective code := by
  intro a b h
  cases a <;> cases b <;> first | rfl | exact absurd h (by decide)

/-- A watch of the manager, as it was asked for. -/
def asked (callback : Option ℕ) (w : Idle.Watch) : Armed :=
  ⟨code w.id, w.timeout, w.inputOnly, callback⟩

/-- Disarming is what the manager takes it for. -/
theorem asked_unwatch (callback : Option ℕ) (id : Idle.WatchId) (ws : List Idle.Watch) :
    ((Idle.unwatch id ws).map (asked callback)) =
      (ws.map (asked callback)).filter (·.id ≠ code id) := by
  rw [Idle.unwatch, List.filter_map]
  refine congrArg (List.map _) (List.filter_congr fun w _ => ?_)
  rw [Function.comp_apply, decide_eq_decide]
  exact (code_injective.ne_iff (x := w.id) (y := id)).symm

/-- Arming is what the manager takes it for, when the compositor can do what is asked. -/
theorem asked_watch {plan : Plan} {callback : Option ℕ} {ws : List Idle.Watch}
    (h : plan.armed = ws.map (asked callback)) (hseat : plan.seat = true)
    (hnotifier : plan.notifier = true) {inputOnly : Bool}
    (hversion : inputOnly = true → plan.notifierVersion ≥ 2) (id : Idle.WatchId)
    (timeout : UInt32) : plan.step (.watch (code id) timeout inputOnly callback true) =
      { plan with armed := (Idle.watch id timeout inputOnly ws).map (asked callback) } := by
  have hinput : (inputOnly && decide (plan.notifierVersion ≥ 2)) = inputOnly := by
    cases inputOnly with
    | false => rfl
    | true => exact decide_eq_true (hversion rfl)
  rw [Plan.step, hseat, hnotifier, hinput, Idle.watch, List.map_cons, asked_unwatch, h]
  rfl

/-- A call of the manager. -/
inductive Call where
  | watch (id : Idle.WatchId) (timeout : UInt32) (inputOnly : Bool)
  | unwatch (id : Idle.WatchId)

def Call.event (callback : Option ℕ) : Call → Event
  | .watch id timeout inputOnly => .watch (code id) timeout inputOnly callback true
  | .unwatch id => .unwatch (code id)

/-- What the manager takes a call for. -/
def Call.on (ws : List Idle.Watch) : Call → List Idle.Watch
  | .watch id timeout inputOnly => Idle.watch id timeout inputOnly ws
  | .unwatch id => Idle.unwatch id ws

/-- **The watches of the manager are those that are armed**, after any calls that it makes, when the
compositor can do what is asked. -/
theorem armed_calls {plan : Plan} {callback : Option ℕ} {ws : List Idle.Watch}
    (h : plan.armed = ws.map (asked callback)) (hseat : plan.seat = true)
    (hnotifier : plan.notifier = true) (hversion : plan.notifierVersion ≥ 2) (calls : List Call) :
    (Transition.run Plan.step plan (calls.map (Call.event callback))).armed =
      (calls.foldl Call.on ws).map (asked callback) := by
  induction calls generalizing plan ws with
  | nil => exact h
  | cons call calls ih =>
    rw [List.map_cons, Transition.run_cons, List.foldl_cons]
    cases call with
    | watch id timeout inputOnly =>
      rw [Call.event, asked_watch h hseat hnotifier (fun _ => hversion)]
      exact ih rfl hseat hnotifier hversion
    | unwatch id =>
      refine ih ?_ hseat hnotifier hversion
      rw [Call.on, asked_unwatch, ← h]
      rfl

end IdleNotify

end SingularityShell
