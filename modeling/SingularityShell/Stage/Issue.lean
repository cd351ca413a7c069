import SingularityShell.Stage.Ids

/-!
# Which ids one step hands out

Seen from outside, one call in the process does little to the sets: those that existed keep their
ids and go from model to model at most, and those it creates get the tag it restores or an id the
counter had not reached. `World.Advances` says so for the process as a whole.

## Main results

* `World.InOrder.advances` — every step advances the process, unless the counter wraps
* `World.Distinct.run` — no two sets have one id, unless a tag that is in use is restored elsewhere
-/

namespace SingularityShell

variable {ι κ : Type*}

/-- The tag an event restores. -/
def Event.tag : Event ι κ → Option UInt32
  | .on _ c => c.tag
  | .adopt _ _ => none

namespace World

/-- A step from `w` to `w'` that may restore a tag. -/
structure Advances (tag : Option UInt32) (w w' : World ι κ) : Prop where
  nextRef : w.heap.nextRef ≤ w'.heap.nextRef
  nextId : w.heap.nextId ≤ w'.heap.nextId
  /-- The id of a set is fixed at construction. -/
  id : ∀ r < w.heap.nextRef, (w'.heap.sets r).id = (w.heap.sets r).id
  /-- A set that was there before was in some model. -/
  old : ∀ l, ∀ r ∈ (w'.stage l).refs, r < w.heap.nextRef → ∃ l', r ∈ (w.stage l').refs
  /-- The id of a set that was created. -/
  issued : ∀ l, ∀ r ∈ (w'.stage l).refs, w.heap.nextRef ≤ r →
    w.heap.nextId ≤ (w'.heap.sets r).id ∨ tag = some (w'.heap.sets r).id
  /-- No two sets were created under one id. -/
  once : ∀ l l', ∀ r ∈ (w'.stage l).refs, ∀ q ∈ (w'.stage l').refs, w.heap.nextRef ≤ r →
    w.heap.nextRef ≤ q → (w'.heap.sets r).id = (w'.heap.sets q).id → r = q

theorem Advances.refl {w : World ι κ} (h : w.Sound) (tag : Option UInt32) : Advances tag w w where
  nextRef := le_rfl
  nextId := UInt32.le_refl _
  id _ _ := rfl
  old l _ hr _ := ⟨l, hr⟩
  issued l r hr hle := absurd ((h.owned l).fresh r hr) (not_lt.mpr hle)
  once l _ r hr _ _ hle := absurd ((h.owned l).fresh r hr) (not_lt.mpr hle)

variable [DecidableEq ι] {w : World ι κ} {i j : ι}

/-- One model changes, the others keep their sets. -/
theorem Advances.put {tag : Option UInt32} (h : w.Sound) {s : Stage κ}
    (hx : Stage.Extends (w.stage i) s) (hc : Stage.Counts tag (w.stage i) s) :
    Advances tag w (w.put i s) := by
  have hold : ∀ l, l ≠ i → ∀ r ∈ ((w.put i s).stage l).refs, r ∈ (w.stage l).refs := by
    intro l hl r hr
    rwa [stage_put_of_ne s hl] at hr
  have hself : ∀ r ∈ ((w.put i s).stage i).refs, r ∈ s.refs := by
    intro r hr
    rwa [stage_put_self] at hr
  have hnew : ∀ l, ∀ r ∈ ((w.put i s).stage l).refs, w.heap.nextRef ≤ r → l = i := by
    intro l r hr hle
    by_contra hl
    exact absurd ((h.owned l).fresh r (hold l hl r hr)) (not_lt.mpr hle)
  refine ⟨hx.nextRef, hc.le, hx.id, fun l r hr hlt => ?_, fun l r hr hle => ?_, ?_⟩
  · by_cases hl : l = i
    · subst hl
      exact ⟨l, (hx.refs r (hself r hr)).resolve_right (not_le.mpr hlt)⟩
    · exact ⟨l, hold l hl r hr⟩
  · obtain rfl := hnew l r hr hle
    exact hc.issued r (hself r hr) hle
  · intro l l' r hr q hq hle hle' he
    obtain rfl := hnew l r hr hle
    obtain rfl := hnew l' q hq hle'
    exact hc.numbered.inj r (hself r hr) q (hself q hq) he

variable [DecidableEq κ]

theorem InOrder.advances_adopt (h : w.InOrder) (hd : w.Separate i j)
    (hw : ¬w.Wraps (.adopt i j)) : Advances none w (w.step (.adopt i j)) := by
  have ho := h.sound.owned i
  obtain ⟨h1, h2⟩ := (h.sound.stageApart hd).adopt ho
  have hx := Stage.extends_adoptActive (w.stage i) (w.models j)
  have hc := ((h.numbered i).counts ho none).adoptActive ho (w.models j) fun ha hm oa hoa => by
    by_contra hne
    exact hw ⟨ha, hm, oa, hoa, hne⟩
  have hheap : (w.step (.adopt i j)).heap = ((w.stage i).adoptActive (w.models j)).toHeap :=
    h2.toHeap
  -- The sets of every model are old ones, but for one that `adopt` may have made.
  have hrefs : ∀ l, ∀ r ∈ ((w.step (.adopt i j)).stage l).refs,
      (∃ l', r ∈ (w.stage l').refs) ∨
        r = w.heap.nextRef ∧ r ∈ ((w.stage i).adoptActive (w.models j)).refs := by
    intro l r hr
    by_cases hlj : l = j
    · subst hlj
      rw [stage_adopt_other] at hr
      cases hr
    · by_cases hli : l = i
      · subst hli
        rw [stage_adopt_self hd.1, Stage.mem_refs, h2.active, h2.inactive, List.mem_append,
          h1.inactive] at hr
        rcases hr with hr | hr | hr
        · rcases h1.active with ha | ⟨ha, -⟩
          · exact Or.inl ⟨l, Stage.mem_refs.mpr (Or.inl (ha ▸ hr))⟩
          · refine Or.inr ⟨?_, Stage.mem_refs.mpr (Or.inl hr)⟩
            rw [ha] at hr
            exact (Option.some_inj.mp hr).symm
        · exact Or.inl ⟨l, Stage.mem_refs.mpr (Or.inr hr)⟩
        · exact Or.inl ⟨j, Stage.mem_refs.mpr (Or.inr (List.mem_filter.mp hr).1)⟩
      · rw [stage_adopt_of_ne hli hlj] at hr
        exact Or.inl ⟨l, hr⟩
  have hnew : ∀ l, ∀ r ∈ ((w.step (.adopt i j)).stage l).refs, w.heap.nextRef ≤ r →
      r = w.heap.nextRef ∧ r ∈ ((w.stage i).adoptActive (w.models j)).refs := by
    intro l r hr hle
    refine (hrefs l r hr).resolve_left ?_
    rintro ⟨l', hl'⟩
    exact absurd ((h.sound.owned l').fresh r hl') (not_lt.mpr hle)
  refine ⟨?_, ?_, fun r hr => ?_, fun l r hr hlt => ?_, fun l r hr hle => ?_, ?_⟩
  · rw [hheap]; exact hx.nextRef
  · rw [hheap]; exact hc.le
  · rw [hheap]; exact hx.id r hr
  · refine (hrefs l r hr).resolve_right ?_
    rintro ⟨rfl, -⟩
    exact absurd hlt (lt_irrefl _)
  · rw [hheap]
    exact hc.issued r (hnew l r hr hle).2 hle
  · intro l l' r hr q hq hle hle' _
    rw [(hnew l r hr hle).1, (hnew l' q hq hle').1]

/-- **One step** creates sets under the tag it restores or under new ids, and changes no id. -/
theorem InOrder.advances (h : w.InOrder) {e : Event ι κ} (hl : w.Fair e) (hw : ¬w.Wraps e) :
    Advances e.tag w (w.step e) := by
  cases e with
  | on i c =>
    exact Advances.put h.sound (Stage.extends_call (h.sound.owned i) c)
      ((h.numbered i).call (h.sound.owned i) c hw)
  | adopt i j => exact h.advances_adopt hl hw

end World

/-! ### Sets created under a tag -/

namespace Stage

variable [DecidableEq κ] {s : Stage κ} {r : ℕ} {k : κ}

theorem refs_flagRestored (s : Stage κ) (k : κ) (minimized hidden : Bool) :
    (s.flagRestored k minimized hidden).refs = s.refs := by
  unfold flagRestored
  split
  · rfl
  · split <;> rfl

/-- `restore_window` creates a set only for a new window, without a tag or with a new one. -/
theorem restoreWindow_new (ho : s.Owned) {setId : UInt32} {minimized hidden : Bool}
    (hr : r ∈ (s.restoreWindow k setId minimized hidden).refs) (hle : s.nextRef ≤ r) :
    s.owner k = none ∧ (setId = 0 ∨ s.findSet setId = none) := by
  have hnot : r ∉ s.refs := fun hc => absurd (ho.fresh r hc) (not_lt.mpr hle)
  by_cases hk : s.owner k = none
  · refine ⟨hk, ?_⟩
    by_contra hc
    obtain ⟨h0, hf⟩ := not_or.mp hc
    obtain ⟨q, hq⟩ := Option.ne_none_iff_exists'.mp hf
    have hres : (s.reserveId setId).findSet setId = some q ∧ (s.reserveId setId).refs = s.refs := by
      unfold reserveId
      split <;> exact ⟨hq, rfl⟩
    have hadd : (s.reserveId setId).findOrAdd setId = (s.reserveId setId, q) := by
      rw [findOrAdd, hres.1]
    refine hnot ?_
    rw [← hres.2]
    rw [restoreWindow, if_neg (by simp [hk]), if_neg h0] at hr
    simp only [hadd] at hr
    rwa [refs_flagRestored] at hr
  · rw [restoreWindow, if_pos (Option.isSome_iff_ne_none.mpr hk)] at hr
    exact absurd hr hnot

end Stage

namespace World

/-- A call that creates a set under one of the given ids, because a window that is tagged with it
is restored into a model that has no such set. -/
def Reissues (ids : Set UInt32) (w : World ι κ) : Event ι κ → Prop
  | .on l (.restoreWindow key setId _ _) =>
    (w.stage l).owner key = none ∧ (w.stage l).findSet setId = none ∧ setId ∈ ids
  | _ => False

/-! ### No id twice -/

/-- The ids of the sets of all models. -/
def usedIds (w : World ι κ) : Set UInt32 :=
  {id | ∃ i, ∃ r ∈ (w.stage i).refs, (w.heap.sets r).id = id}

/-- No two sets of the process have one id. -/
def UniqueIds (w : World ι κ) : Prop :=
  ∀ i j, ∀ r ∈ (w.stage i).refs, ∀ q ∈ (w.stage j).refs,
    (w.heap.sets r).id = (w.heap.sets q).id → r = q

/-- The call creates a set for a tag that a set of another model has. -/
def Clashes (w : World ι κ) (e : Event ι κ) : Prop := w.Reissues w.usedIds e

variable {w : World ι κ} {i j : ι}

theorem InOrder.legal (h : w.InOrder) (hu : w.UniqueIds) {e : Event ι κ} (hf : w.Fair e) :
    w.Legal e := by
  cases e with
  | on i c => trivial
  | adopt i j =>
    exact ⟨hf, fun r hr q hq he => h.sound.apart i j hf.1 r hr (hu i j r hr q hq he ▸ hq)⟩

/-- A tag the counter has not reached is in no model. -/
theorem InOrder.not_clashes (h : w.InOrder) {key : κ} {setId : UInt32} {minimized hidden : Bool}
    (hle : w.heap.nextId ≤ setId) :
    ¬w.Clashes (.on i (.restoreWindow key setId minimized hidden)) := by
  rintro ⟨-, -, j, r, hr, hid⟩
  have : (w.heap.sets r).id < w.heap.nextId := (h.numbered j).below r hr
  grind

/-- Sets are told apart by their ids, in a process that is in order. -/
structure Distinct (w : World ι κ) : Prop where
  inOrder : w.InOrder
  uniqueIds : w.UniqueIds

theorem distinct_start {h : Heap κ} (hpos : 0 < h.nextId) : (start h : World ι κ).Distinct where
  inOrder := inOrder_start hpos
  uniqueIds i _ r hr := by cases hr

variable [DecidableEq ι] [DecidableEq κ]

/-- A set that was created under the tag of a call was created by `restore_window`. -/
theorem InOrder.reissues_of_tag {ids : Set UInt32} (h : w.InOrder) (hpos : 0 ∉ ids)
    {e : Event ι κ} {l : ι} {r : ℕ} (hr : r ∈ ((w.step e).stage l).refs)
    (hle : w.heap.nextRef ≤ r) (htag : e.tag = some ((w.step e).heap.sets r).id)
    (hmem : ((w.step e).heap.sets r).id ∈ ids) : w.Reissues ids e := by
  cases e with
  | adopt => cases htag
  | on i c =>
    cases c with
    | restoreWindow key setId min hid =>
      have hid : setId = ((w.step (.on i (.restoreWindow key setId min hid))).heap.sets r).id :=
        Option.some_inj.mp htag
      rw [← hid] at hmem
      have hli : l = i := by
        by_contra hli
        rw [show (w.step (.on i (.restoreWindow key setId min _))).stage l = _ from
          stage_put_of_ne _ hli] at hr
        exact absurd ((h.sound.owned l).fresh r hr) (not_lt.mpr hle)
      subst hli
      rw [show (w.step (.on l (.restoreWindow key setId min _))).stage l = _ from
        stage_put_self _] at hr
      obtain ⟨hown, hf⟩ := Stage.restoreWindow_new (h.sound.owned l) hr hle
      exact ⟨hown, hf.resolve_left fun h0 => hpos (h0 ▸ hmem), hmem⟩
    | restoreFinish | addWindow | removeWindow | setUserMinimized | activate | moveWindow
    | markShown | clear => cases htag

theorem InOrder.uniqueIds_step (h : w.InOrder) (hu : w.UniqueIds) {e : Event ι κ} (hf : w.Fair e)
    (hw : ¬w.Wraps e) (hc : ¬w.Clashes e) : (w.step e).UniqueIds := by
  have ha := h.advances hf hw
  have hpos : 0 ∉ w.usedIds := by
    rintro ⟨i, r, hr, h0⟩
    have := (h.numbered i).pos r hr
    change 0 < (w.heap.sets r).id at this
    rw [h0] at this
    exact absurd this (by decide)
  have hused : ∀ l, ∀ r ∈ ((w.step e).stage l).refs, r < w.heap.nextRef →
      ((w.step e).heap.sets r).id ∈ w.usedIds := by
    intro l r hr hlt
    obtain ⟨l', hl'⟩ := ha.old l r hr hlt
    exact ⟨l', r, hl', (ha.id r hlt).symm⟩
  -- A new set has an id that no old one has.
  have hnew : ∀ l, ∀ r ∈ ((w.step e).stage l).refs, w.heap.nextRef ≤ r →
      ((w.step e).heap.sets r).id ∉ w.usedIds := by
    intro l r hr hle hmem
    rcases ha.issued l r hr hle with hge | htag
    · obtain ⟨i, q, hq, he⟩ := hmem
      have : (w.heap.sets q).id < w.heap.nextId := (h.numbered i).below q hq
      grind
    · exact hc (h.reissues_of_tag hpos hr hle htag hmem)
  intro i j r hr q hq he
  rcases lt_or_ge r w.heap.nextRef with hlt | hle <;>
    rcases lt_or_ge q w.heap.nextRef with hlt' | hle'
  · obtain ⟨i', hi'⟩ := ha.old i r hr hlt
    obtain ⟨j', hj'⟩ := ha.old j q hq hlt'
    rw [ha.id r hlt, ha.id q hlt'] at he
    exact hu i' j' r hi' q hj' he
  · exact absurd (he ▸ hused i r hr hlt) (hnew j q hq hle')
  · exact absurd (he ▸ hused j q hq hlt') (he ▸ hnew i r hr hle)
  · exact ha.once i j r hr q hq hle hle' he

/-- **No id twice**, in every run in which the counter does not wrap and no set is created for a
tag that is in use. -/
theorem Distinct.run (h : w.Distinct) {es : List (Event ι κ)}
    (hf : Transition.Guarded step Fair w es)
    (hg : Transition.Guarded step (fun w e => ¬w.Wraps e ∧ ¬w.Clashes e) w es) :
    (Transition.run step w es).Distinct := by
  induction es generalizing w with
  | nil => exact h
  | cons e es ih =>
    refine ih ⟨?_, ?_⟩ hf.2 hg.2
    · exact inOrder_step w e h.inOrder ⟨h.inOrder.legal h.uniqueIds hf.1, hg.1.1⟩
    · exact h.inOrder.uniqueIds_step h.uniqueIds hf.1 hg.1.1 hg.1.2

end World

end SingularityShell
