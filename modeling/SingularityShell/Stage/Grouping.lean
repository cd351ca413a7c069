import Mathlib.Data.Set.Basic
import Mathlib.Order.Disjoint
import Mathlib.Order.BooleanAlgebra.Set
import Mathlib.Logic.Function.Basic

/-!
# What a stage is for

A stage shows one group of windows and keeps the others out of sight. This file says so without
lists, objects or plans: every key has at most one group, one group may be active, and two sets of
keys are marked, those the stage keeps hidden and those the user has minimised.

`Settled` is the purpose of the component: nothing of the active group is hidden, everything else
is hidden or minimised, and the two marks exclude each other. `Settled.onScreen_eq` is what it
buys: the windows left on screen are those of the active group that the user has not minimised.

The operations are functions on the abstract state. Each comes with the lemma that it keeps, or
establishes, `Settled`.
-/

namespace SingularityShell

/-- Keys `κ` in groups named by `γ`. -/
@[ext] structure Grouping (γ κ : Type*) where
  /-- The group of a key. -/
  group : κ → Option γ
  /-- The active group. -/
  active : Option γ
  /-- The keys hidden by the stage. -/
  hidden : Set κ
  /-- The keys minimised by the user. -/
  minimized : Set κ

namespace Grouping

variable {γ κ : Type*} {v w : Grouping γ κ} {k : κ} {g : γ}

/-- The keys of a group. -/
def members (v : Grouping γ κ) (g : γ) : Set κ := {k | v.group k = some g}

/-- The keys of the active group. -/
def activeMembers (v : Grouping γ κ) : Set κ := {k | v.group k ≠ none ∧ v.group k = v.active}

/-- The keys that have a group. -/
def grouped (v : Grouping γ κ) : Set κ := {k | v.group k ≠ none}

/-- The keys the compositor has on screen. -/
def onScreen (v : Grouping γ κ) : Set κ := {k | k ∈ v.grouped ∧ k ∉ v.hidden ∧ k ∉ v.minimized}

/-- The marks are on grouped keys. -/
structure Marked (v : Grouping γ κ) : Prop where
  hidden_grouped : v.hidden ⊆ v.grouped
  minimized_grouped : v.minimized ⊆ v.grouped

/-- The marks are on grouped keys, and no key has both. -/
structure Coherent (v : Grouping γ κ) : Prop extends Marked v where
  disjoint : ∀ k ∈ v.hidden, k ∉ v.minimized

/-- The active group is shown and everything else is put away. -/
structure Settled (v : Grouping γ κ) : Prop extends Coherent v where
  active_shown : ∀ k ∈ v.activeMembers, k ∉ v.hidden
  rest_away : ∀ k ∈ v.grouped, k ∉ v.activeMembers → k ∈ v.hidden ∨ k ∈ v.minimized

theorem mem_members : k ∈ v.members g ↔ v.group k = some g := Iff.rfl

theorem mem_activeMembers : k ∈ v.activeMembers ↔ v.group k ≠ none ∧ v.group k = v.active := Iff.rfl

theorem mem_grouped : k ∈ v.grouped ↔ v.group k ≠ none := Iff.rfl

theorem activeMembers_subset (v : Grouping γ κ) : v.activeMembers ⊆ v.grouped := fun _ h => h.1

/-- **The purpose.** In a settled state the screen shows exactly the active group's keys that the
user has not minimised. -/
theorem Settled.onScreen_eq (h : v.Settled) : v.onScreen = v.activeMembers \ v.minimized := by
  ext k
  constructor
  · rintro ⟨hg, hh, hm⟩
    refine ⟨?_, hm⟩
    by_contra ha
    rcases h.rest_away k hg ha with h' | h'
    · exact hh h'
    · exact hm h'
  · rintro ⟨ha, hm⟩
    exact ⟨v.activeMembers_subset ha, h.active_shown k ha, hm⟩

/-! ### Operations -/

/-- No key, no group. -/
def empty : Grouping γ κ := ⟨fun _ => none, none, ∅, ∅⟩

theorem settled_empty : (empty : Grouping γ κ).Settled := by
  refine ⟨⟨⟨?_, ?_⟩, ?_⟩, ?_, ?_⟩ <;> simp [empty, grouped]

section
variable [DecidableEq κ]

/-- A new key joins the active group, which is `g`. -/
def join (v : Grouping γ κ) (k : κ) (g : γ) : Grouping γ κ :=
  { v with group := Function.update v.group k (some g), active := some g }

/-- A key and its marks disappear. -/
def forget (v : Grouping γ κ) (k : κ) : Grouping γ κ :=
  { v with
    group := Function.update v.group k none
    hidden := v.hidden \ {k}
    minimized := v.minimized \ {k} }

/-- A new key appears in group `g` with the marks it had. -/
def place (v : Grouping γ κ) (k : κ) (g : γ) (minimized hidden : Bool) : Grouping γ κ :=
  { v with
    group := Function.update v.group k (some g)
    hidden := if minimized && hidden then insert k v.hidden else v.hidden
    minimized := if minimized && !hidden then insert k v.minimized else v.minimized }

open Classical in
/-- One key goes to another group. -/
noncomputable def move (v : Grouping γ κ) (k : κ) (g : γ) : Grouping γ κ :=
  { v with
    group := Function.update v.group k (some g)
    hidden :=
      if v.active = some g then v.hidden \ {k}
      else if k ∈ v.activeMembers then v.hidden ∪ ({k} \ v.minimized)
      else v.hidden }

end

/-- The user minimises a key, or brings it back. -/
def minimize (v : Grouping γ κ) (k : κ) (b : Bool) : Grouping γ κ :=
  { v with minimized := if b then insert k v.minimized else v.minimized \ {k} }

/-- A key loses its marks. -/
def unmark (v : Grouping γ κ) (k : κ) : Grouping γ κ :=
  { v with hidden := v.hidden \ {k}, minimized := v.minimized \ {k} }

/-- Another group becomes active. -/
def switchTo (v : Grouping γ κ) (g : γ) : Grouping γ κ :=
  { v with
    active := some g
    hidden := (v.hidden ∪ (v.activeMembers \ v.minimized)) \ v.members g }

open Classical in
/-- Group `g` becomes active and takes the keys of the active group in. -/
noncomputable def gather (v : Grouping γ κ) (g : γ) : Grouping γ κ :=
  { v with
    group := fun k => if k ∈ v.activeMembers then some g else v.group k
    active := some g }

/-- Shows the active group and puts everything else away. -/
def settle (v : Grouping γ κ) : Grouping γ κ :=
  { v with
    hidden := (v.hidden \ v.activeMembers) ∪ ((v.grouped \ v.activeMembers) \ v.minimized) }

open Classical in
/-- The keys of `w` are taken over: its active group joins ours, which is `g?`, its other groups
stay as they are. -/
noncomputable def absorb (v w : Grouping γ κ) (g? : Option γ) : Grouping γ κ :=
  { group := fun k =>
      if k ∈ w.activeMembers then g? else if k ∈ w.grouped then w.group k else v.group k
    active := g?
    hidden := v.hidden ∪ (w.hidden \ w.activeMembers)
    minimized := v.minimized ∪ w.minimized }

theorem group_gather_of_mem (h : k ∈ v.activeMembers) : (v.gather g).group k = some g := if_pos h

theorem group_gather_of_notMem (h : k ∉ v.activeMembers) : (v.gather g).group k = v.group k :=
  if_neg h

theorem group_absorb_active (g? : Option γ) (h : k ∈ w.activeMembers) :
    (v.absorb w g?).group k = g? := if_pos h

theorem group_absorb_rest (g? : Option γ) (h : k ∈ w.grouped) (ha : k ∉ w.activeMembers) :
    (v.absorb w g?).group k = w.group k := (if_neg ha).trans (if_pos h)

theorem group_absorb_own (g? : Option γ) (h : k ∉ w.grouped) :
    (v.absorb w g?).group k = v.group k :=
  (if_neg fun ha => h (w.activeMembers_subset ha)).trans (if_neg h)

/-! ### What the operations keep -/

/-- Unfolds the two invariants to statements about single keys. -/
theorem settled_iff : v.Settled ↔
    (∀ k, (k ∈ v.hidden → v.group k ≠ none) ∧ (k ∈ v.minimized → v.group k ≠ none) ∧
      (k ∈ v.hidden → k ∉ v.minimized) ∧ (v.group k ≠ none → v.group k = v.active → k ∉ v.hidden) ∧
      (v.group k ≠ none → v.group k ≠ v.active → k ∈ v.hidden ∨ k ∈ v.minimized)) := by
  constructor
  · intro h k
    refine ⟨fun hk => h.hidden_grouped hk, fun hk => h.minimized_grouped hk, h.disjoint k,
      fun h1 h2 => h.active_shown k ⟨h1, h2⟩, fun h1 h2 => h.rest_away k h1 fun h3 => h2 h3.2⟩
  · intro h
    exact ⟨⟨⟨fun k hk => (h k).1 hk, fun k hk => (h k).2.1 hk⟩, fun k => (h k).2.2.1⟩,
      fun k hk => (h k).2.2.2.1 hk.1 hk.2,
      fun k hk hn => (h k).2.2.2.2 hk fun h3 => hn ⟨hk, h3⟩⟩

theorem coherent_iff : v.Coherent ↔
    ∀ k, (k ∈ v.hidden → v.group k ≠ none) ∧ (k ∈ v.minimized → v.group k ≠ none) ∧
      (k ∈ v.hidden → k ∉ v.minimized) :=
  ⟨fun h k => ⟨fun hk => h.hidden_grouped hk, fun hk => h.minimized_grouped hk, h.disjoint k⟩,
    fun h => ⟨⟨fun k hk => (h k).1 hk, fun k hk => (h k).2.1 hk⟩, fun k => (h k).2.2⟩⟩

theorem marked_iff : v.Marked ↔
    ∀ k, (k ∈ v.hidden → v.group k ≠ none) ∧ (k ∈ v.minimized → v.group k ≠ none) :=
  ⟨fun h _ => ⟨fun hk => h.hidden_grouped hk, fun hk => h.minimized_grouped hk⟩,
    fun h => ⟨fun k hk => (h k).1 hk, fun k hk => (h k).2 hk⟩⟩

section
variable [DecidableEq κ]

/-- The group a key joins is the active one, or a new one when none is active. -/
theorem Settled.join (h : v.Settled) (hk : v.group k = none)
    (hg : v.active = some g ∨ v.active = none ∧ ∀ k, v.group k ≠ some g) :
    (v.join k g).Settled := by
  rw [settled_iff] at h ⊢
  intro j
  have := h j
  simp only [Grouping.join, Function.update_apply]
  grind

theorem Settled.forget (h : v.Settled) : (v.forget k).Settled := by
  rw [settled_iff] at h ⊢
  intro j
  have := h j
  simp only [Grouping.forget, Function.update_apply, Set.mem_sdiff, Set.mem_singleton_iff]
  grind

theorem Coherent.place {minimized hidden : Bool} (h : v.Coherent) (hk : v.group k = none) :
    (v.place k g minimized hidden).Coherent := by
  rw [coherent_iff] at h ⊢
  intro j
  have := h j
  have := h k
  cases minimized <;> cases hidden <;>
    simp only [Grouping.place, Function.update_apply] <;> grind

theorem mem_hidden_move (j : κ) : j ∈ (v.move k g).hidden ↔
    v.active = some g ∧ j ∈ v.hidden ∧ j ≠ k ∨
    v.active ≠ some g ∧ (j ∈ v.hidden ∨ j = k ∧ k ∈ v.activeMembers ∧ k ∉ v.minimized) := by
  simp only [move]
  split_ifs with h1 h2
  · simp [h1]
  · simp only [Set.mem_union, Set.mem_sdiff, Set.mem_singleton_iff]
    grind
  · simp [h1, h2]

theorem Settled.move (h : v.Settled) (hk : v.group k ≠ none) : (v.move k g).Settled := by
  rw [settled_iff] at h ⊢
  intro j
  have := h j
  have := h k
  simp only [mem_hidden_move, mem_activeMembers]
  simp only [Grouping.move, Function.update_apply]
  grind

end

theorem Settled.minimize {b : Bool} (h : v.Settled) (hk : k ∈ v.activeMembers) :
    (v.minimize k b).Settled := by
  rw [mem_activeMembers] at hk
  rw [settled_iff] at h ⊢
  intro j
  have := h j
  cases b <;> simp only [Grouping.minimize] <;> grind

theorem Settled.switchTo (h : v.Settled) : (v.switchTo g).Settled := by
  classical
  rw [settled_iff] at h ⊢
  intro j
  have := h j
  simp only [Grouping.switchTo, Set.mem_sdiff, Set.mem_union, mem_members, mem_activeMembers]
  grind

theorem Coherent.gather (h : v.Coherent) : (v.gather g).Coherent := by
  rw [coherent_iff] at h ⊢
  intro j
  have := h j
  simp only [Grouping.gather, mem_activeMembers]
  grind

/-- Whatever the marks were before, `settle` settles. -/
theorem Coherent.settle (h : v.Coherent) : v.settle.Settled := by
  rw [coherent_iff] at h
  rw [settled_iff]
  intro j
  have := h j
  simp only [Grouping.settle, Set.mem_sdiff, Set.mem_union, mem_activeMembers, mem_grouped]
  grind

theorem Settled.absorb {g? : Option γ} (hv : v.Settled) (hw : w.Settled)
    (hdisj : ∀ k, v.group k = none ∨ w.group k = none)
    (hg : v.active = g? ∨ v.active = none ∧ ∀ k, v.group k = none ∨ v.group k ≠ g?)
    (hg' : ∀ k, w.group k = none ∨ w.group k ≠ g? )
    (hsome : ∀ k ∈ w.activeMembers, g? ≠ none) :
    (v.absorb w g?).Settled := by
  classical
  rw [settled_iff] at hv hw ⊢
  intro j
  have h1 := hv j
  have h2 := hw j
  have h3 := hdisj j
  have h4 := hsome j
  have h5 := hg' j
  simp only [Grouping.absorb, Set.mem_sdiff, Set.mem_union, mem_activeMembers, mem_grouped] at h4 ⊢
  grind

/-! ### The marks stay on grouped keys -/

section
variable [DecidableEq κ]

theorem Marked.join (h : v.Marked) : (v.join k g).Marked := by
  rw [marked_iff] at h ⊢
  intro j
  have := h j
  simp only [Grouping.join, Function.update_apply]
  grind

theorem Marked.forget (h : v.Marked) : (v.forget k).Marked := by
  rw [marked_iff] at h ⊢
  intro j
  have := h j
  simp only [Grouping.forget, Function.update_apply, Set.mem_sdiff, Set.mem_singleton_iff]
  grind

theorem Marked.place {minimized hidden : Bool} (h : v.Marked) :
    (v.place k g minimized hidden).Marked := by
  rw [marked_iff] at h ⊢
  intro j
  have := h j
  cases minimized <;> cases hidden <;>
    simp only [Grouping.place, Function.update_apply] <;> grind

theorem Marked.move (h : v.Marked) : (v.move k g).Marked := by
  rw [marked_iff] at h ⊢
  intro j
  have := h j
  simp only [mem_hidden_move]
  simp only [Grouping.move, Function.update_apply]
  grind

end

theorem Marked.minimize {b : Bool} (h : v.Marked) (hk : v.group k ≠ none) :
    (v.minimize k b).Marked := by
  rw [marked_iff] at h ⊢
  intro j
  have := h j
  cases b <;> simp only [Grouping.minimize] <;> grind

theorem Marked.unmark (h : v.Marked) : (v.unmark k).Marked :=
  ⟨Set.sdiff_subset.trans h.hidden_grouped, Set.sdiff_subset.trans h.minimized_grouped⟩

theorem Marked.switchTo (h : v.Marked) : (v.switchTo g).Marked := by
  rw [marked_iff] at h ⊢
  intro j
  have := h j
  simp only [Grouping.switchTo, Set.mem_sdiff, Set.mem_union, mem_activeMembers]
  tauto

theorem Marked.gather (h : v.Marked) : (v.gather g).Marked := by
  rw [marked_iff] at h ⊢
  intro j
  have := h j
  simp only [Grouping.gather, mem_activeMembers]
  grind

theorem Marked.settle (h : v.Marked) : v.settle.Marked := by
  rw [marked_iff] at h ⊢
  intro j
  have := h j
  simp only [Grouping.settle, Set.mem_sdiff, Set.mem_union, mem_grouped]
  tauto

theorem Marked.absorb {g? : Option γ} (hv : v.Marked) (hw : w.Marked)
    (hsome : ∀ k ∈ w.activeMembers, g? ≠ none) : (v.absorb w g?).Marked := by
  rw [marked_iff] at hv hw ⊢
  intro j
  have h1 := hv j
  have h2 := hw j
  have h3 := hsome j
  simp only [Grouping.absorb, Set.mem_sdiff, Set.mem_union, mem_activeMembers, mem_grouped] at h3 ⊢
  grind

/-! ### Strays -/

/-- The keys that are on screen although their group is not active. -/
def stray (v : Grouping γ κ) : Set κ := v.onScreen \ v.activeMembers

/-- The strays of `w` are strays of `v`, in the same groups. -/
def Tidier (w v : Grouping γ κ) : Prop := ∀ k ∈ w.stray, k ∈ v.stray ∧ w.group k = v.group k

theorem mem_stray : k ∈ v.stray ↔ (v.group k ≠ none ∧ k ∉ v.hidden ∧ k ∉ v.minimized) ∧
    ¬(v.group k ≠ none ∧ v.group k = v.active) := Iff.rfl

theorem Tidier.refl (v : Grouping γ κ) : v.Tidier v := fun _ hk => ⟨hk, rfl⟩

theorem Tidier.trans {u : Grouping γ κ} (h : u.Tidier w) (h' : w.Tidier v) : u.Tidier v :=
  fun k hk => ⟨(h' k (h k hk).1).1, (h k hk).2.trans (h' k (h k hk).1).2⟩

section
variable [DecidableEq κ]

theorem tidier_join (hg : v.active = some g ∨ v.active = none) : (v.join k g).Tidier v := by
  intro j hj
  rw [mem_stray] at hj ⊢
  simp only [join, Function.update_apply] at hj ⊢
  grind

theorem tidier_forget : (v.forget k).Tidier v := by
  intro j hj
  rw [mem_stray] at hj ⊢
  simp only [forget, Function.update_apply, Set.mem_sdiff, Set.mem_singleton_iff] at hj ⊢
  grind

theorem tidier_move (hk : k ∉ v.stray ∨ v.active = some g) (hg : v.group k ≠ none) :
    (v.move k g).Tidier v := by
  intro j hj
  rw [mem_stray] at hk hj ⊢
  rw [mem_hidden_move, mem_activeMembers] at hj
  simp only [move, Function.update_apply] at hj ⊢
  grind

end

theorem tidier_minimize {b : Bool} (hk : b = true ∨ k ∈ v.activeMembers) :
    (v.minimize k b).Tidier v := by
  intro j hj
  rw [mem_activeMembers] at hk
  rw [mem_stray] at hj ⊢
  cases b <;> simp only [minimize] at hj ⊢ <;> grind

theorem tidier_switchTo : (v.switchTo g).Tidier v := by
  intro j hj
  rw [mem_stray] at hj ⊢
  simp only [switchTo, Set.mem_sdiff, Set.mem_union, mem_members, mem_activeMembers] at hj ⊢
  grind

theorem stray_settle : v.settle.stray = ∅ := by
  refine Set.eq_empty_of_forall_notMem fun j hj => ?_
  rw [mem_stray] at hj
  simp only [settle, Set.mem_sdiff, Set.mem_union, mem_activeMembers, mem_grouped] at hj
  grind

/-- A key without its marks is the only new stray. -/
theorem mem_stray_unmark {j : κ} (hj : j ∈ (v.unmark k).stray) : j ∈ v.stray ∨ j = k := by
  rw [mem_stray] at hj ⊢
  simp only [unmark, Set.mem_sdiff, Set.mem_singleton_iff] at hj
  grind

end Grouping

end SingularityShell
