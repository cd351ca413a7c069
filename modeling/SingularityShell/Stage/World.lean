import SingularityShell.Lib.Transition
import SingularityShell.Stage.Frame
import SingularityShell.Stage.Refinement

/-!
# The models of one process

`StageManager` keeps one `StageModel` for each monitor, all in one process. A `World` is the heap
with the models in it, and a run is a list of calls of the methods, each on one of the models, in
any interleaving, with `adopt` as the one method that involves two of them.

## Main definitions

* `Call`, `Stage.call` — the mutating methods as data
* `World`, `Event`, `World.step` — the process
* `World.Sound` — ownership is a partition in every model, and no `StageSet` is in two of them

## Main results

* `World.sound_step`, `World.Sound.run` — every run keeps the process sound
-/

namespace SingularityShell

variable {ι κ : Type*}

/-- A call of a mutating method of `StageModel` other than `adopt`. -/
inductive Call (κ : Type*)
  | restoreWindow (key : κ) (setId : UInt32) (minimized hidden : Bool)
  | restoreFinish (activeId : UInt32) (order : Option (List UInt32))
  | addWindow (key : κ)
  | removeWindow (key : κ)
  | setUserMinimized (key : κ) (minimized : Bool)
  | activate (id : UInt32)
  | moveWindow (key : κ) (targetId : UInt32)
  | markShown (key : κ)
  | clear

/-- The call, and the plan it returns. The methods that return no plan get an empty one. -/
def Stage.call [DecidableEq κ] (s : Stage κ) : Call κ → Stage κ × StagePlan κ
  | .restoreWindow key setId minimized hidden => (s.restoreWindow key setId minimized hidden, {})
  | .restoreFinish activeId order => s.restoreFinish activeId order
  | .addWindow key => (s.addWindow key, {})
  | .removeWindow key => (s.removeWindow key, {})
  | .setUserMinimized key minimized => (s.setUserMinimized key minimized, {})
  | .activate id => s.activate id
  | .moveWindow key targetId => s.moveWindow key targetId
  | .markShown key => (s.markShown key, {})
  | .clear => (s.clear.1, {})

/-- The heap of the process and the models in it. -/
structure World (ι κ : Type*) where
  heap : Heap κ
  models : ι → StageModel κ

/-- One call in the process: a method on one model, or `adopt` of the second model by the first. -/
inductive Event (ι κ : Type*)
  | on (i : ι) (c : Call κ)
  | adopt (i j : ι)

namespace World

/-- Every model is new. -/
def start (h : Heap κ) : World ι κ := ⟨h, fun _ => .fresh⟩

/-- One model, with the heap. -/
def stage (w : World ι κ) (i : ι) : Stage κ := ⟨w.heap, w.models i⟩

@[simp] theorem stage_start (h : Heap κ) (i : ι) :
    (start h : World ι κ).stage i = ⟨h, .fresh⟩ := rfl

/-! ### Ownership in every model -/

/-- Ownership is a partition in every model, and two models share no `StageSet`. -/
structure Sound (w : World ι κ) : Prop where
  owned : ∀ i, (w.stage i).Owned
  noEmpty : ∀ i, (w.stage i).NoEmpty
  apart : ∀ i j, i ≠ j → ∀ r ∈ (w.stage i).refs, r ∉ (w.stage j).refs

theorem sound_start (h : Heap κ) : (start h : World ι κ).Sound where
  owned _ := Stage.owned_fresh h
  noEmpty _ := Stage.noEmpty_fresh h
  apart i j _ r hr := by simp [Stage.refs, StageModel.fresh] at hr

/-- The models that `adopt` may merge: two different ones with no window in common. -/
def Separate (w : World ι κ) (i j : ι) : Prop :=
  i ≠ j ∧ ∀ k, (w.models i).owner k = none ∨ (w.models j).owner k = none

variable {w : World ι κ} {i j : ι}

theorem Sound.stageApart (h : w.Sound) (hd : w.Separate i j) :
    (w.stage i).Apart (w.models j) :=
  ⟨h.owned j, h.apart i j hd.1, hd.2⟩

/-! ### Steps -/

variable [DecidableEq ι]

/-- The process after one model, and the heap, have changed. -/
def put (w : World ι κ) (i : ι) (s : Stage κ) : World ι κ :=
  ⟨s.toHeap, Function.update w.models i s.toStageModel⟩

@[simp] theorem stage_put_self (s : Stage κ) : (w.put i s).stage i = s := by
  simp [stage, put]

theorem stage_put_of_ne (s : Stage κ) (h : j ≠ i) :
    (w.put i s).stage j = ⟨s.toHeap, w.models j⟩ := by
  simp [stage, put, h]

variable [DecidableEq κ]

/-- One call. -/
def step (w : World ι κ) : Event ι κ → World ι κ
  | .on i c => w.put i ((w.stage i).call c).1
  | .adopt i j =>
    let r := (w.stage i).adopt (w.models j)
    ⟨r.1.toHeap, Function.update (Function.update w.models i r.1.toStageModel) j r.2⟩

theorem stage_adopt_self (h : i ≠ j) :
    (w.step (.adopt i j)).stage i = ((w.stage i).adopt (w.models j)).1 := by
  simp [step, stage, h]

theorem stage_adopt_other (w : World ι κ) (i j : ι) : (w.step (.adopt i j)).stage j =
    ⟨((w.stage i).adopt (w.models j)).1.toHeap, .fresh⟩ := by
  simp [step, stage, Stage.adopt]

theorem stage_adopt_of_ne {l : ι} (hi : l ≠ i) (hj : l ≠ j) : (w.step (.adopt i j)).stage l =
    ⟨((w.stage i).adopt (w.models j)).1.toHeap, w.models l⟩ := by
  simp [step, stage, hi, hj]

end World

namespace Stage

variable {s s' : Stage κ}

/-- Ownership only depends on the sets of the model. -/
theorem Owned.frame {h h' : Heap κ} {m : StageModel κ} (ho : Owned ⟨h, m⟩)
    (hnext : h.nextRef ≤ h'.nextRef)
    (hsets : ∀ r ∈ (⟨h, m⟩ : Stage κ).refs, h'.sets r = h.sets r) : Owned ⟨h', m⟩ where
  nodup := ho.nodup
  fresh r hr := (ho.fresh r hr).trans_le hnext
  windows_nodup r hr := by
    change (h'.sets r).windows.Nodup
    rw [hsets r hr]
    exact ho.windows_nodup r hr
  owner_iff k r := by
    refine (ho.owner_iff k r).trans (and_congr_right fun hr => ?_)
    change _ ↔ k ∈ (h'.sets r).windows
    rw [hsets r hr]

theorem NoEmpty.frame {h h' : Heap κ} {m : StageModel κ} (hn : NoEmpty ⟨h, m⟩)
    (hsets : ∀ r ∈ (⟨h, m⟩ : Stage κ).refs, h'.sets r = h.sets r) : NoEmpty ⟨h', m⟩ := by
  intro r hr
  change (h'.sets r).windows ≠ []
  rw [hsets r (mem_refs.mpr (Or.inr hr))]
  exact hn r hr

variable [DecidableEq κ]

theorem Owned.call (h : s.Owned) (c : Call κ) : (s.call c).1.Owned := by
  cases c with
  | restoreWindow key setId minimized hidden => exact h.restoreWindow key setId minimized hidden
  | restoreFinish activeId order => exact h.restoreFinish activeId order
  | addWindow key => exact h.addWindow key
  | removeWindow key => exact h.removeWindow key
  | setUserMinimized key minimized => exact h.setUserMinimized key minimized
  | activate id => exact h.activate id
  | moveWindow key targetId => exact h.moveWindow key targetId
  | markShown key => exact h.markShown key
  | clear => exact owned_fresh _

theorem NoEmpty.call (ho : s.Owned) (h : s.NoEmpty) (c : Call κ) : (s.call c).1.NoEmpty := by
  cases c with
  | restoreWindow key setId minimized hidden => exact h.restoreWindow ho key setId minimized hidden
  | restoreFinish activeId order => exact noEmpty_restoreFinish s activeId order
  | addWindow key => exact h.addWindow ho key
  | removeWindow key => exact h.removeWindow ho key
  | setUserMinimized key minimized => exact h.setUserMinimized key minimized
  | activate id => exact h.activate id
  | moveWindow key targetId => exact h.moveWindow ho key targetId
  | markShown key => exact h.markShown key
  | clear => exact noEmpty_fresh _

theorem extends_call (h : s.Owned) (c : Call κ) : Extends s (s.call c).1 := by
  cases c with
  | restoreWindow key setId minimized hidden =>
    exact extends_restoreWindow s key setId minimized hidden
  | restoreFinish activeId order => exact extends_restoreFinish s activeId order
  | addWindow key => exact extends_addWindow s key
  | removeWindow key => exact extends_removeWindow h key
  | setUserMinimized key minimized => exact extends_setUserMinimized s key minimized
  | activate id => exact extends_activate s id
  | moveWindow key targetId => exact extends_moveWindow h key targetId
  | markShown key => exact extends_of_sub rfl rfl fun _ hr => hr
  | clear =>
    exact extends_of_sub rfl rfl fun r hr => by simp [call, clear, refs, StageModel.fresh] at hr

end Stage

namespace World

variable {w : World ι κ} {i j : ι}

section
variable [DecidableEq κ]

/-- After `adopt` the model holds its own sets, the other model's, and at most a new one. -/
theorem Sound.refs_adopt (h : w.Sound) (hd : w.Separate i j) {r : ℕ}
    (hr : r ∈ ((w.stage i).adopt (w.models j)).1.refs) :
    r ∈ (w.stage i).refs ∨ r ∈ (w.models j).inactive ∨ r = w.heap.nextRef := by
  obtain ⟨h1, h2⟩ := (h.stageApart hd).adopt (h.owned i)
  rw [Stage.mem_refs, h2.active, h2.inactive, List.mem_append, h1.inactive] at hr
  rcases hr with hr | hr | hr
  · rcases h1.active with ha | ⟨ha, -⟩
    · exact Or.inl (Stage.mem_refs.mpr (Or.inl (ha ▸ hr)))
    · rw [ha] at hr
      exact Or.inr (Or.inr (Option.some_inj.mp hr).symm)
  · exact Or.inl (Stage.mem_refs.mpr (Or.inr hr))
  · exact Or.inr (Or.inl (List.mem_filter.mp hr).1)

/-- `adopt` leaves the sets alone that neither it nor another model holds. -/
theorem Sound.sets_adopt (h : w.Sound) (hd : w.Separate i j) {r : ℕ} (hlt : r < w.heap.nextRef)
    (hr : r ∉ (w.stage i).refs) :
    ((w.stage i).adopt (w.models j)).1.sets r = w.heap.sets r := by
  obtain ⟨-, h2⟩ := (h.stageApart hd).adopt (h.owned i)
  rw [h2.toHeap]
  exact (Stage.extends_adoptActive (w.stage i) (w.models j)).frame r hlt hr

end

variable [DecidableEq ι]

/-- One model changes within its footprint. -/
theorem Sound.put (h : w.Sound) {s : Stage κ} (ho : s.Owned) (hn : s.NoEmpty)
    (he : Stage.Extends (w.stage i) s) : (w.put i s).Sound := by
  have hsets : ∀ l, l ≠ i → ∀ r ∈ (w.stage l).refs, s.sets r = w.heap.sets r := fun l hl r hr =>
    he.frame r ((h.owned l).fresh r hr) fun hc => h.apart l i hl r hr hc
  have hold : ∀ l, l ≠ i → ∀ r ∈ (w.stage l).refs, r ∉ s.refs := fun l hl r hr hc => by
    rcases he.refs r hc with hc | hc
    · exact h.apart l i hl r hr hc
    · exact absurd ((h.owned l).fresh r hr) (not_lt.mpr hc)
  refine ⟨fun l => ?_, fun l => ?_, fun l m hlm r hr hr' => ?_⟩
  · by_cases hl : l = i
    · subst hl; rwa [stage_put_self]
    · rw [stage_put_of_ne s hl]
      exact (h.owned l).frame he.nextRef (hsets l hl)
  · by_cases hl : l = i
    · subst hl; rwa [stage_put_self]
    · rw [stage_put_of_ne s hl]
      exact (h.noEmpty l).frame (hsets l hl)
  · by_cases hl : l = i
    · subst hl
      rw [stage_put_self] at hr
      rw [stage_put_of_ne s (Ne.symm hlm)] at hr'
      exact hold m (Ne.symm hlm) r hr' hr
    · rw [stage_put_of_ne s hl] at hr
      by_cases hm : m = i
      · subst hm
        rw [stage_put_self] at hr'
        exact hold l hl r hr hr'
      · rw [stage_put_of_ne s hm] at hr'
        exact h.apart l m hlm r hr hr'

variable [DecidableEq κ]

theorem Sound.adopt (h : w.Sound) (hd : w.Separate i j) : (w.step (.adopt i j)).Sound := by
  have hap := h.stageApart hd
  obtain ⟨h1, h2⟩ := hap.adopt (h.owned i)
  have hnext : w.heap.nextRef ≤ ((w.stage i).adopt (w.models j)).1.nextRef := by
    rw [h2.toHeap]; exact h1.nextRef
  have hsets : ∀ l, l ≠ i → ∀ r ∈ (w.stage l).refs,
      ((w.stage i).adopt (w.models j)).1.sets r = w.heap.sets r := fun l hl r hr =>
    h.sets_adopt hd ((h.owned l).fresh r hr) fun hc => h.apart l i hl r hr hc
  have hold : ∀ l, l ≠ i → l ≠ j → ∀ r ∈ (w.stage l).refs,
      r ∉ ((w.stage i).adopt (w.models j)).1.refs := fun l hl hlj r hr hc => by
    rcases h.refs_adopt hd hc with hc | hc | hc
    · exact h.apart l i hl r hr hc
    · exact h.apart l j hlj r hr (Stage.mem_refs.mpr (Or.inr hc))
    · exact absurd ((h.owned l).fresh r hr) (by rw [hc]; exact lt_irrefl _)
  have hempty : (⟨((w.stage i).adopt (w.models j)).1.toHeap, .fresh⟩ : Stage κ).refs = [] := rfl
  refine ⟨fun l => ?_, fun l => ?_, fun l m hlm r hr hr' => ?_⟩
  · by_cases hj : l = j
    · subst hj; rw [stage_adopt_other]; exact Stage.owned_fresh _
    · by_cases hl : l = i
      · subst hl; rw [stage_adopt_self hd.1]; exact h2.owned
      · rw [stage_adopt_of_ne hl hj]; exact (h.owned l).frame hnext (hsets l hl)
  · by_cases hj : l = j
    · subst hj; rw [stage_adopt_other]; exact Stage.noEmpty_fresh _
    · by_cases hl : l = i
      · subst hl; rw [stage_adopt_self hd.1]; exact hap.noEmpty_adopt (h.owned l) (h.noEmpty l)
      · rw [stage_adopt_of_ne hl hj]; exact (h.noEmpty l).frame (hsets l hl)
  · by_cases hj : l = j
    · subst hj; rw [stage_adopt_other, hempty] at hr; cases hr
    by_cases hmj : m = j
    · subst hmj; rw [stage_adopt_other, hempty] at hr'; cases hr'
    by_cases hl : l = i
    · subst hl
      rw [stage_adopt_self hd.1] at hr
      rw [stage_adopt_of_ne (Ne.symm hlm) hmj] at hr'
      exact hold m (Ne.symm hlm) hmj r hr' hr
    · rw [stage_adopt_of_ne hl hj] at hr
      by_cases hm : m = i
      · subst hm
        rw [stage_adopt_self hd.1] at hr'
        exact hold l hl hj r hr hr'
      · rw [stage_adopt_of_ne hm hmj] at hr'
        exact h.apart l m hlm r hr hr'

/-- The calls the models are made for: `adopt` merges models that share no window. -/
def Fair (w : World ι κ) : Event ι κ → Prop
  | .on _ _ => True
  | .adopt i j => w.Separate i j

theorem sound_step (w : World ι κ) (e : Event ι κ) (h : w.Sound) (hf : w.Fair e) :
    (w.step e).Sound := by
  cases e with
  | on i c =>
    exact h.put ((h.owned i).call c) ((h.noEmpty i).call (h.owned i) c)
      (Stage.extends_call (h.owned i) c)
  | adopt i j => exact h.adopt hf

/-- **Every run keeps ownership a partition** in every model of the process. -/
theorem Sound.run (h : w.Sound) {es : List (Event ι κ)}
    (hg : Transition.Guarded step Fair w es) : (Transition.run step w es).Sound :=
  hg.invariant sound_step h

end World

end SingularityShell
