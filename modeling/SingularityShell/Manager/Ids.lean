import SingularityShell.Manager.Handlers
import SingularityShell.Stage.Issue

/-!
# A set id names one set of one monitor

`monitor_of_set`, `find_set`, `activate` and `move_window` are given a set id and rely on it to
name one set. The ids of new sets are different in all models, because the counter is shared. The
ids of restored sets are not: `restore_window` looks for the tag in its own model only, so two
windows with one tag on two monitors make two sets with one id.

## Main definitions

* `Manager.Unambiguous` — the handler restores no tag that a set of another monitor has
* `Manager.IdsUnique` — what it is for

## Main results

* `Manager.run_idsUnique` — ids are unique in every run of such handlers, whatever the order of the
  maps
* `Manager.not_idsUnique_of_tags` — a group that was torn apart between two sessions
-/

namespace SingularityShell

namespace Manager

open Tracker

variable {κ : Type*} {m : Manager κ} {e : Handler κ}

/-- What holds between two handlers. -/
structure Running (m : Manager κ) : Prop where
  tracking : m.Tracking
  ready : m.Ready
  distinct : m.world.Distinct

theorem running_start : (start : Manager κ).Running :=
  ⟨tracking_start, ready_start, World.distinct_start (by decide : (0 : UInt32) < 1)⟩

variable [DecidableEq κ]

/-- The calls a handler makes on the models. -/
def calls (m : Manager κ) (e : Handler κ) : List (Event String κ) :=
  (m.step e).journal.drop m.journal.length

/-- At every call the handler makes, the counter does not wrap, and no set is created for a tag
that a set of another model has. -/
def Unambiguous (m : Manager κ) (e : Handler κ) : Prop :=
  Transition.Guarded World.step (fun w c => ¬w.Wraps c ∧ ¬w.Clashes c) m.world (m.calls e)

theorem journal_step (h : m.Tracking) (hr : m.Ready) (e : Handler κ) :
    (m.step e).journal = m.journal ++ m.calls e := by
  obtain ⟨es, hj, -, -⟩ := (reaches_step h hr e).performs
  unfold calls
  rw [hj, List.drop_left]

/-- What a handler does to the models is the calls it makes, and they are fair. -/
theorem world_step (h : m.Tracking) (hr : m.Ready) (e : Handler κ) :
    (m.step e).world = Transition.run World.step m.world (m.calls e) ∧
      Transition.Guarded World.step World.Fair m.world (m.calls e) := by
  obtain ⟨es, hj, hw, hg⟩ := (reaches_step h hr e).performs
  obtain rfl : m.calls e = es :=
    List.append_cancel_left ((journal_step h hr e).symm.trans hj)
  exact ⟨hw, hg⟩

theorem running_step (m : Manager κ) (e : Handler κ) (h : m.Running) (hu : m.Unambiguous e) :
    (m.step e).Running := by
  have hreach := reaches_step h.tracking h.ready e
  obtain ⟨hw, hf⟩ := world_step h.tracking h.ready e
  exact ⟨hreach.tracking, hreach.ready h.ready, hw ▸ h.distinct.run hf hu⟩

/-- The models are where the calls of the journal have taken them, and the calls meet the
condition. -/
def Traced (m : Manager κ) : Prop :=
  m.world = Transition.run World.step (.start .initial) m.journal ∧
    Transition.Guarded World.step World.Fair (.start .initial) m.journal ∧
    Transition.Guarded World.step (fun w c => ¬w.Wraps c ∧ ¬w.Clashes c) (.start .initial) m.journal

theorem traced_step (m : Manager κ) (e : Handler κ) (h : m.Running ∧ m.Traced)
    (hu : m.Unambiguous e) : (m.step e).Running ∧ (m.step e).Traced := by
  obtain ⟨hrun, hw, hf, hg⟩ := h
  obtain ⟨hw', hf'⟩ := world_step hrun.tracking hrun.ready e
  have hj := journal_step hrun.tracking hrun.ready e
  have hnext := running_step m e hrun hu
  unfold Unambiguous at hu
  rw [hw] at hf' hu
  refine ⟨hnext, ?_, ?_, ?_⟩
  · rw [hj, Transition.run_append, ← hw, hw']
  · rw [hj]
    exact (Transition.guarded_append _ _ _).mpr ⟨hf, hf'⟩
  · rw [hj]
    exact (Transition.guarded_append _ _ _).mpr ⟨hg, hu⟩

/-! ### What an id names -/

/-- A set id names one set of one monitor. -/
structure IdsUnique (m : Manager κ) : Prop where
  /-- No two sets have one id. -/
  unique : ∀ c ∈ m.names, ∀ c' ∈ m.names, ∀ r ∈ (m.model c).refs, ∀ q ∈ (m.model c').refs,
    (m.world.heap.sets r).id = (m.world.heap.sets q).id → c = c' ∧ r = q
  /-- `monitor_of_set` does not depend on the order of the map. -/
  monitor : ∀ names : List String, names.Perm m.names → ∀ id,
    names.find? (fun c => ((m.model c).findSet id).isSome) = m.monitorOfSet id
  /-- `monitor_of_set` and `find_set` find every set by its id. -/
  find : ∀ c ∈ m.names, ∀ r ∈ (m.model c).refs,
    m.monitorOfSet (m.world.heap.sets r).id = some c ∧
      (m.model c).findSet (m.world.heap.sets r).id = some r
  /-- No `adopt` so far has put two sets with one id into a model. -/
  adopt : ∀ js js' c c', m.journal = js ++ .adopt c c' :: js' →
    let s := (Transition.run World.step (.start .initial) (js ++ [.adopt c c'])).stage c
    (s.refs.map fun r => (s.sets r).id).Nodup

theorem Running.idsUnique (h : m.Running) (ht : m.Traced) : m.IdsUnique := by
  have hunique : ∀ c ∈ m.names, ∀ c' ∈ m.names, ∀ r ∈ (m.model c).refs, ∀ q ∈ (m.model c').refs,
      (m.world.heap.sets r).id = (m.world.heap.sets q).id → c = c' ∧ r = q := by
    intro c _ c' _ r hr q hq he
    obtain rfl := h.distinct.uniqueIds c c' r hr q hq he
    refine ⟨?_, rfl⟩
    by_contra hne
    exact h.tracking.sound.apart c c' hne r hr hq
  have hfind : ∀ {c id}, ((m.model c).findSet id).isSome →
      ∃ r ∈ (m.model c).refs, (m.world.heap.sets r).id = id := by
    intro c id hs
    obtain ⟨r, hr⟩ := Option.isSome_iff_exists.mp hs
    exact ⟨r, Stage.findSet_mem hr⟩
  refine ⟨hunique, fun names hperm id => ?_, fun c hc r hr => ?_, fun js js' c c' hj => ?_⟩
  · refine Lists.find?_perm hperm fun c hc c' hc' hs hs' => ?_
    obtain ⟨r, hr, hid⟩ := hfind hs
    obtain ⟨q, hq, hid'⟩ := hfind hs'
    exact (hunique c hc c' hc' r hr q hq (hid.trans hid'.symm)).1
  · have hset : (m.model c).findSet (m.world.heap.sets r).id = some r :=
      Lists.find?_eq_some_of_unique hr (decide_eq_true rfl) fun q hq he =>
        (hunique c hc c hc q hq r hr (of_decide_eq_true he)).2
    refine ⟨Lists.find?_eq_some_of_unique hc (by rw [hset]; rfl) fun c' hc' hs => ?_, hset⟩
    obtain ⟨q, hq, he⟩ := hfind hs
    exact (hunique c' hc' c hc q hq r hr he).1
  · obtain ⟨-, hf, hg⟩ := ht
    have hsplit : js ++ Event.adopt c c' :: js' = (js ++ [.adopt c c']) ++ js' := by simp
    rw [hj, hsplit] at hf hg
    have hd := (World.distinct_start (ι := String) (κ := κ) (h := .initial)
      (by decide : (0 : UInt32) < 1)).run ((Transition.guarded_append _ _ _).mp hf).1
      ((Transition.guarded_append _ _ _).mp hg).1
    exact (hd.inOrder.sound.owned c).nodup.map_on fun r hr q hq he => hd.uniqueIds c c r hr q hq he

/-- **A set id names one set of one monitor**, after every handler of every run in which no window
is restored under a tag that a set of another monitor has. -/
theorem run_idsUnique (es : List (Handler κ))
    (hg : Transition.Guarded step Unambiguous start es) :
    (Transition.run step start es : Manager κ).IdsUnique := by
  have htraced : (start : Manager κ).Traced := ⟨rfl, trivial, trivial⟩
  obtain ⟨hrun, ht⟩ := hg.invariant traced_step ⟨running_start, htraced⟩
  exact hrun.idsUnique ht

/-- Two groups on two monitors; then the second monitor is unplugged. -/
theorem run_idsUnique_unplug : IdsUnique (Transition.run step (start : Manager String)
    [.applySetting true .none (.twoMonitors fun key => if key = "a" then 5 else 7),
      .syncMonitors { Desk.twoMonitors fun _ => 0 with connectors := ["DP-1"] }]) := by
  have hfirst : (World.step (.start .initial)
      (.on "DP-1" (.restoreWindow "a" 5 false false)) : World String String).InOrder :=
    World.inOrder_step _ _ (World.inOrder_start (by decide : (0 : UInt32) < 1))
      ⟨trivial, by decide⟩
  refine run_idsUnique _ (And.intro ?_ <| And.intro ?_ trivial)
  · refine And.intro ⟨by decide, ?_⟩ <| And.intro ⟨by decide, ?_⟩ <|
      And.intro ⟨by decide, id⟩ <| And.intro ⟨by decide, id⟩ trivial
    · exact (World.inOrder_start (by decide : (0 : UInt32) < 1)).not_clashes (by decide)
    · exact hfirst.not_clashes (by decide)
  · exact And.intro ⟨by decide, id⟩ trivial

/-- Both windows carry the tag of one group, because one of them changed monitors since. -/
theorem not_idsUnique_of_tags : ¬∀ es : List (Handler String),
    (Transition.run step (start : Manager String) es).IdsUnique := by
  intro h
  have hu :=
    (h [.applySetting true .none (.twoMonitors fun _ => 5)]).unique "DP-1" (by decide) "DP-2"
    (by decide) 0 (by decide) 1 (by decide) (by decide)
  exact absurd hu.2 (by decide)

end Manager

end SingularityShell
