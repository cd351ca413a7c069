import SingularityShell.Stage.World
import Mathlib.Data.UInt

/-!
# Set ids

A new set takes its id from the static `_next_id`, and `reserve_id` moves the counter past every id
that is restored. As long as the counter does not wrap this keeps the ids of a model pairwise
different. The counter is a `uint`, so it does wrap: `new_set` at `uint.MAX` and a restored id of
`uint.MAX` both take it back to `0`, and from there it hands out ids that are in use.

## Main definitions

* `Stage.Numbered` — positive, pairwise different ids below the counter
* `Stage.Wraps`, `World.Wraps` — the calls that make the counter wrap
* `Stage.Partition` — ownership, flags and ids as an observer of the model sees them

## Main results

* `World.run_partition` — in every run in which the counter does not wrap, ownership is a partition
  in every model, ids are pairwise different, no inactive set is empty
* `World.not_partition_of_wrap` — a run in which it wraps
-/

namespace SingularityShell

variable {ι κ : Type*}

/-- `uint.MAX`. -/
def maxId : UInt32 := 4294967295

theorem lt_add_one_of_ne_maxId {a : UInt32} (h : a ≠ maxId) : a < a + 1 := by
  unfold maxId at h
  grind

/-- The tag a call restores. -/
def Call.tag : Call κ → Option UInt32
  | .restoreWindow _ setId _ _ => some setId
  | _ => none

namespace Stage

variable {tag : Option UInt32} {s₀ s s' : Stage κ} {r : ℕ} {k : κ}

/-- The ids of the sets are positive, pairwise different and below the counter. -/
structure Numbered (s : Stage κ) : Prop where
  counter : 0 < s.nextId
  pos : ∀ r ∈ s.refs, 0 < (s.sets r).id
  below : ∀ r ∈ s.refs, (s.sets r).id < s.nextId
  inj : ∀ r ∈ s.refs, ∀ q ∈ s.refs, (s.sets r).id = (s.sets q).id → r = q

/-- The ids are in order after a method that started from `s₀` and may have restored a tag: the
counter has not gone back, and a set that was created has the tag or an id the counter had not
handed out before. -/
structure Counts (tag : Option UInt32) (s₀ s : Stage κ) : Prop where
  numbered : s.Numbered
  le : s₀.nextId ≤ s.nextId
  issued : ∀ r ∈ s.refs, s₀.nextRef ≤ r →
    s₀.nextId ≤ (s.sets r).id ∨ tag = some (s.sets r).id

theorem Numbered.counts (h : s.Numbered) (ho : s.Owned) (tag : Option UInt32) : Counts tag s s :=
  ⟨h, UInt32.le_refl _, fun r hr hle => absurd (ho.fresh r hr) (not_lt.mpr hle)⟩

theorem numbered_fresh {h : Heap κ} (hpos : 0 < h.nextId) : Numbered ⟨h, .fresh⟩ where
  counter := hpos
  pos r hr := by cases hr
  below r hr := by cases hr
  inj r hr := by cases hr

theorem marked_fresh (h : Heap κ) : (⟨h, .fresh⟩ : Stage κ).grouping.Marked :=
  ⟨by simp [grouping, StageModel.fresh], by simp [grouping, StageModel.fresh]⟩

/-- No set is added and no id changes. -/
theorem Counts.of_sub (h : Counts tag s₀ s) (hnext : s.nextId ≤ s'.nextId)
    (hrefs : ∀ r ∈ s'.refs, r ∈ s.refs) (hid : ∀ r ∈ s.refs, (s'.sets r).id = (s.sets r).id) :
    Counts tag s₀ s' := by
  have hn := h.numbered
  refine ⟨⟨by have := hn.counter; grind, fun r hr => ?_, fun r hr => ?_, fun r hr q hq he => ?_⟩,
    UInt32.le_trans h.le hnext, fun r hr hle => ?_⟩
  · rw [hid r (hrefs r hr)]; exact hn.pos r (hrefs r hr)
  · have := hn.below r (hrefs r hr)
    rw [hid r (hrefs r hr)]
    grind
  · rw [hid r (hrefs r hr), hid q (hrefs q hq)] at he
    exact hn.inj r (hrefs r hr) q (hrefs q hq) he
  · rw [hid r (hrefs r hr)]; exact h.issued r (hrefs r hr) hle

/-- One set is added, under an id no other set has. -/
theorem Counts.of_new (h : Counts tag s₀ s) {id : UInt32} (hpos : 0 < id) (hlt : id < s'.nextId)
    (hnext : s.nextId ≤ s'.nextId) (hnew : ∀ r ∈ s.refs, (s.sets r).id ≠ id)
    (hissued : s₀.nextId ≤ id ∨ tag = some id)
    (hfresh : s.nextRef ∉ s.refs) (hrefs : ∀ r ∈ s'.refs, r ∈ s.refs ∨ r = s.nextRef)
    (hsets : s'.sets = Function.update s.sets s.nextRef ⟨id, []⟩) : Counts tag s₀ s' := by
  have hn := h.numbered
  have hold : ∀ r ∈ s.refs, s'.sets r = s.sets r := fun r hr => by
    rw [hsets, Function.update_of_ne fun he : r = s.nextRef => hfresh (he ▸ hr)]
  have hid : (s'.sets s.nextRef).id = id := by rw [hsets, Function.update_self]
  refine ⟨⟨by have := hn.counter; grind, fun r hr => ?_, fun r hr => ?_, fun r hr q hq he => ?_⟩,
    UInt32.le_trans h.le hnext, fun r hr hle => ?_⟩
  · rcases hrefs r hr with hr | rfl
    · rw [hold r hr]; exact hn.pos r hr
    · rwa [hid]
  · rcases hrefs r hr with hr | rfl
    · have := hn.below r hr
      rw [hold r hr]
      grind
    · rwa [hid]
  · rcases hrefs r hr with hr | rfl <;> rcases hrefs q hq with hq | rfl
    · rw [hold r hr, hold q hq] at he
      exact hn.inj r hr q hq he
    · rw [hold r hr, hid] at he
      exact absurd he (hnew r hr)
    · rw [hold q hq, hid] at he
      exact absurd he.symm (hnew q hq)
    · rfl
  · rcases hrefs r hr with hr | rfl
    · rw [hold r hr]; exact h.issued r hr hle
    · rwa [hid]

/-- `new_set` below `uint.MAX`. -/
theorem Counts.of_newSet (h : Counts tag s₀ s) (hmax : s.nextId ≠ maxId)
    (hfresh : s.nextRef ∉ s.refs)
    (hnext : s'.nextId = s.nextId + 1) (hrefs : ∀ r ∈ s'.refs, r ∈ s.refs ∨ r = s.nextRef)
    (hsets : s'.sets = Function.update s.sets s.nextRef ⟨s.nextId, []⟩) : Counts tag s₀ s' := by
  have hlt := lt_add_one_of_ne_maxId hmax
  refine h.of_new h.numbered.counter (hnext ▸ hlt) (hnext ▸ by grind) (fun r hr he => ?_)
    (Or.inl h.le) hfresh hrefs hsets
  have := h.numbered.below r hr
  grind

theorem Counts.ensureActive (h : Counts tag s₀ s) (ho : s.Owned)
    (hmax : s.active = none → s.nextId ≠ maxId) : Counts tag s₀ s.ensureActive.1 := by
  rcases ensureActive_cases s with ⟨-, he⟩ | ⟨ha, -, he⟩
  · rwa [he]
  · refine h.of_newSet (hmax ha) ho.nextRef_not_mem (by rw [he]) (fun r hr => ?_) (by rw [he])
    rw [he, refs_active rfl, List.mem_cons] at hr
    rw [refs_none ha]
    exact hr.symm

theorem Counts.reserveId (h : Counts tag s₀ s) {id : UInt32} (hmax : id ≠ maxId) :
    Counts tag s₀ (s.reserveId id) ∧ id < (s.reserveId id).nextId ∧
      s.nextId ≤ (s.reserveId id).nextId := by
  have hlt := lt_add_one_of_ne_maxId hmax
  unfold Stage.reserveId
  split
  · next hle =>
    have hnext : s.nextId ≤ id + 1 := by grind
    exact ⟨h.of_sub hnext (fun r hr => hr) fun r _ => rfl, hlt, hnext⟩
  · next hle => exact ⟨h, by grind, by grind⟩

theorem findSet_none {id : UInt32} (h : s.findSet id = none) (hr : r ∈ s.refs) :
    (s.sets r).id ≠ id := by
  simpa using List.find?_eq_none.mp h r hr

theorem Counts.findOrAdd (h : Counts tag s₀ s) (ho : s.Owned) {id : UInt32} (hpos : 0 < id)
    (hlt : id < s.nextId) (htag : tag = some id) : Counts tag s₀ (s.findOrAdd id).1 := by
  unfold Stage.findOrAdd
  split
  · exact h
  · next hn =>
    refine h.of_new hpos hlt (by exact UInt32.le_refl _) (fun r hr => findSet_none hn hr)
      (Or.inr htag) ho.nextRef_not_mem (fun r hr => ?_) rfl
    change r ∈ s.active.toList ++ (s.inactive ++ [s.nextRef]) at hr
    rwa [← List.append_assoc, List.mem_append, List.mem_singleton] at hr

theorem Counts.moveTarget (h : Counts tag s₀ s) (ho : s.Owned) {targetId : UInt32}
    (hmax : targetId = 0 ∨ s.findSet targetId = none → s.nextId ≠ maxId) :
    Counts tag s₀ (s.moveTarget targetId).1 := by
  unfold Stage.moveTarget
  split
  · exact h
  · next hn =>
    refine h.of_newSet (hmax ?_) ho.nextRef_not_mem rfl (fun r hr => ?_) rfl
    · split at hn
      · next h0 => exact Or.inl h0
      · exact Or.inr hn
    · change r ∈ s.active.toList ++ s.nextRef :: s.inactive at hr
      simp only [refs, List.mem_append, List.mem_cons] at hr ⊢
      tauto

theorem Counts.dropIfEmpty (h : Counts tag s₀ s) (r : ℕ) : Counts tag s₀ (s.dropIfEmpty r) := by
  unfold Stage.dropIfEmpty
  split
  · refine h.of_sub (UInt32.le_refl _) (fun q hq => ?_) fun q _ => rfl
    rw [mem_refs] at hq ⊢
    exact hq.imp_right List.mem_of_mem_erase
  · exact h

theorem Counts.reorder (h : Counts tag s₀ s) (order : Option (List UInt32)) :
    Counts tag s₀ (s.reorder order) := by
  obtain ⟨l, hl, hmem, -⟩ := reorder_eq s order
  rw [hl]
  refine h.of_sub (UInt32.le_refl _) (fun r hr => ?_) fun r _ => rfl
  rw [mem_refs] at hr ⊢
  exact hr.imp_right (hmem r).mp

variable [DecidableEq κ]

theorem Counts.pushWindow (h : Counts tag s₀ s) (r : ℕ) (k : κ) :
    Counts tag s₀ (s.pushWindow r k) :=
  h.of_sub (UInt32.le_refl _) (fun _ hr => hr) fun q _ => id_pushWindow q

theorem Counts.dropWindow (h : Counts tag s₀ s) (r : ℕ) (k : κ) :
    Counts tag s₀ (s.dropWindow r k) :=
  h.of_sub (UInt32.le_refl _) (fun _ hr => hr) fun q _ => id_dropWindow q

theorem Counts.pushAll (h : Counts tag s₀ s) (r : ℕ) (keys : List κ) :
    Counts tag s₀ (s.pushAll r keys) :=
  h.of_sub (UInt32.le_refl _) (fun _ hr => hr) fun q _ => id_pushAll s r keys q

theorem Counts.flagRestored (h : Counts tag s₀ s) (minimized hidden : Bool) :
    Counts tag s₀ (s.flagRestored k minimized hidden) := by
  unfold Stage.flagRestored
  split
  · exact h.of_sub (UInt32.le_refl _) (fun _ hr => hr) fun _ _ => rfl
  · split
    · exact h.of_sub (UInt32.le_refl _) (fun _ hr => hr) fun _ _ => rfl
    · exact h

theorem Counts.mergeActiveInto (h : Counts tag s₀ s) {w : ℕ} (hw : w ∈ s.inactive) :
    Counts tag s₀ (s.mergeActiveInto w) := by
  have hsub : ∀ q ∈ w :: s.inactive.erase w, q ∈ s.refs := fun q hq => by
    rw [mem_refs]
    rcases List.mem_cons.mp hq with rfl | hq
    · exact Or.inr hw
    · exact Or.inr (List.mem_of_mem_erase hq)
  unfold Stage.mergeActiveInto
  split
  · exact h.of_sub (UInt32.le_refl _) (fun q hq => hsub q (by rwa [refs_active rfl] at hq))
      fun _ _ => rfl
  · next a ha =>
    rw [foldl_pushWindow]
    exact (h.pushAll w (s.sets a).windows).of_sub (UInt32.le_refl _)
      (fun q hq => hsub q (by rwa [refs_active rfl] at hq)) fun _ _ => rfl

/-! ### Calls -/

/-- The calls that make `_next_id` wrap: those that create a set when it stands at `uint.MAX`, and
those that restore the id `uint.MAX`. -/
def Wraps (s : Stage κ) : Call κ → Prop
  | .restoreWindow key setId _ _ => s.owner key = none ∧
      (setId = maxId ∨ setId = 0 ∧ s.active = none ∧ s.nextId = maxId)
  | .restoreFinish _ _ => s.refs = [] ∧ s.nextId = maxId
  | .addWindow key => s.owner key = none ∧ s.active = none ∧ s.nextId = maxId
  | .moveWindow key targetId => s.owner key ≠ none ∧ targetId = 0 ∧ s.nextId = maxId
  | _ => False

instance (s : Stage κ) (c : Call κ) : Decidable (s.Wraps c) :=
  match c with
  | .restoreWindow .. => inferInstanceAs (Decidable (_ ∧ _))
  | .restoreFinish .. => inferInstanceAs (Decidable (_ ∧ _))
  | .addWindow _ => inferInstanceAs (Decidable (_ ∧ _))
  | .moveWindow .. => inferInstanceAs (Decidable (_ ∧ _))
  | .removeWindow _ | .setUserMinimized .. | .activate _ | .markShown _ | .clear => isFalse id

theorem Counts.chooseActive (h : Counts tag s₀ s) (ho : s.Owned) (activeId : UInt32)
    (hmax : ¬(s.refs = [] ∧ s.nextId = maxId)) : Counts tag s₀ (s.chooseActive activeId).1 := by
  unfold Stage.chooseActive
  split
  · next w hw =>
    split
    · next ha => exact h.ensureActive ho fun hn => by simp [ha] at hn
    · next hne =>
      have hin := (mem_refs.mp (wantedSet_mem hw)).resolve_left hne
      exact (h.mergeActiveInto hin).ensureActive (ho.mergeActiveInto hin) nofun
  · next hw =>
    refine h.ensureActive ho fun hn hm => hmax ⟨?_, hm⟩
    have hhead : s.inactive.head? = none := by
      unfold wantedSet at hw
      split at hw
      · cases hw
      · exact (Option.or_eq_none_iff.mp hw).2
    rw [refs_none hn, List.head?_eq_none_iff.mp hhead]

/-- **The ids stay in order** unless the counter wraps. -/
theorem Numbered.call (hs : s.Numbered) (ho : s.Owned) (c : Call κ) (hw : ¬s.Wraps c) :
    Counts c.tag s (s.call c).1 := by
  have h := hs.counts ho c.tag
  cases c with
  | restoreWindow key setId min hid =>
    change Counts _ s (s.restoreWindow key setId min hid)
    unfold Stage.restoreWindow
    split
    · exact h
    · next hk =>
      have hk' : s.owner key = none := by simpa using hk
      split
      · next h0 =>
        refine Counts.flagRestored ?_ _ _
        rw [Stage.addWindow, if_neg hk]
        refine (h.ensureActive ho fun ha hm => hw ⟨hk', Or.inr ⟨h0, ha, hm⟩⟩).pushWindow _ _
      · next h0 =>
        have hmax : setId ≠ maxId := fun hm => hw ⟨hk', Or.inl hm⟩
        obtain ⟨h1, h2, -⟩ := h.reserveId hmax
        have hpos : 0 < setId := by grind
        exact ((h1.findOrAdd (ho.reserveId setId) hpos h2 rfl).pushWindow _ _).flagRestored _ _
  | restoreFinish activeId order =>
    refine ((h.chooseActive ho activeId hw).reorder order).of_sub (UInt32.le_refl _)
      (fun r hr => ?_) fun _ _ => rfl
    rw [mem_refs] at hr ⊢
    exact hr.imp_right fun hm => (List.mem_filter.mp hm).1
  | addWindow key =>
    change Counts _ s (s.addWindow key)
    unfold Stage.addWindow
    split
    · exact h
    · next hk =>
      exact (h.ensureActive ho fun ha hm => hw ⟨by simpa using hk, ha, hm⟩).pushWindow _ _
  | removeWindow key =>
    change Counts _ s (s.removeWindow key)
    unfold Stage.removeWindow
    split
    · exact h
    · next r _ =>
      refine Counts.dropIfEmpty ?_ r
      exact (h.dropWindow r key).of_sub (UInt32.le_refl _) (fun _ hr => hr) fun _ _ => rfl
  | setUserMinimized key min =>
    change Counts _ s (s.setUserMinimized key min)
    unfold Stage.setUserMinimized
    split
    · exact h
    · split <;> exact h.of_sub (UInt32.le_refl _) (fun _ hr => hr) fun _ _ => rfl
  | activate id =>
    have hheap := activate_toHeap s id
    refine h.of_sub (hheap ▸ UInt32.le_refl _) (fun r hr => ?_) fun r _ => by
      rw [show ((s.call (.activate id)).1.toHeap) = _ from hheap]
    have hlt : r < s.nextRef := (congrArg Heap.nextRef hheap) ▸ (ho.activate id).fresh r hr
    exact ((extends_activate s id).refs r hr).resolve_right (not_le.mpr hlt)
  | moveWindow key targetId =>
    change Counts _ s (s.moveWindow key targetId).1
    unfold Stage.moveWindow
    split
    · exact h
    · next source hk =>
      split
      · exact h
      · next hc =>
        have hm : Counts _ s (s.moveTarget targetId).1 := h.moveTarget ho fun ht hm =>
          hw ⟨by simp [hk], by_contra fun h0 => hc ⟨h0, Or.inl (ht.resolve_left h0)⟩, hm⟩
        obtain ⟨hidden, he⟩ := moveFlags_eq
          (((s.moveTarget targetId).1.dropWindow source key).pushWindow (s.moveTarget targetId).2
            key) key source (s.moveTarget targetId).2
        refine Counts.dropIfEmpty ?_ source
        rw [he]
        exact ((hm.dropWindow source key).pushWindow _ key).of_sub (UInt32.le_refl _)
          (fun _ hr => hr) fun _ _ => rfl
  | markShown key => exact h.of_sub (UInt32.le_refl _) (fun _ hr => hr) fun _ _ => rfl
  | clear => exact h.of_sub (UInt32.le_refl _) (fun r hr => by cases hr) fun _ _ => rfl

theorem Counts.adoptActive (h : Counts tag s₀ s) (ho : s.Owned) (other : StageModel κ)
    (hmax : s.active = none → s.nextId = maxId →
      ∀ oa, other.active = some oa → (s.sets oa).windows = []) :
    Counts tag s₀ (s.adoptActive other) := by
  rcases adoptActive_eq s other with ⟨he, -⟩ | ⟨oa, hoa, hw, he⟩
  · rwa [he]
  · rw [he]
    refine ((h.ensureActive ho fun ha hm => hw (hmax ha hm oa hoa)).pushAll s.ensureActive.2
      (s.sets oa).windows).of_sub (UInt32.le_refl _) (fun _ hr => hr) fun _ _ => rfl

/-! ### Marks -/

/-- The flags stay on windows of the model, whatever is called. -/
theorem marked_call (ho : s.Owned) (h : s.grouping.Marked) (c : Call κ) :
    (s.call c).1.grouping.Marked := by
  cases c with
  | restoreWindow key setId min hid =>
    by_cases hk : s.owner key = none
    · obtain ⟨g, a, he⟩ := grouping_restoreWindow hk setId min hid
      have hp : (s.grouping.place key g min hid).Marked := h.place
      exact (show (s.restoreWindow key setId min hid).grouping.Marked from
        he ▸ ⟨hp.hidden_grouped, hp.minimized_grouped⟩)
    · change (s.restoreWindow key setId min hid).grouping.Marked
      rwa [restoreWindow, if_pos (Option.isSome_iff_ne_none.mpr hk)]
  | restoreFinish activeId order =>
    change (s.restoreFinish activeId order).1.grouping.Marked
    rw [ho.grouping_restoreFinish]
    exact h.gather.settle
  | addWindow key =>
    change (s.addWindow key).grouping.Marked
    by_cases hk : s.owner key = none
    · rw [grouping_addWindow hk]; exact h.join
    · rwa [addWindow, if_pos (Option.isSome_iff_ne_none.mpr hk)]
  | removeWindow key =>
    change (s.removeWindow key).grouping.Marked
    cases hk : s.owner key with
    | none => simpa only [removeWindow, hk] using h
    | some r => rw [grouping_removeWindow hk]; exact h.forget
  | setUserMinimized key min =>
    change (s.setUserMinimized key min).grouping.Marked
    by_cases hk : s.owner key = none
    · rwa [setUserMinimized, if_pos (Option.isNone_iff_eq_none.mpr hk)]
    · rw [grouping_setUserMinimized hk]; exact h.minimize hk
  | activate id =>
    change (s.activate id).1.grouping.Marked
    rcases ho.grouping_activate id with he | ⟨target, -, -, he⟩
    · rwa [he]
    · rw [he]; exact h.switchTo
  | moveWindow key targetId =>
    change (s.moveWindow key targetId).1.grouping.Marked
    rcases grouping_moveWindow s key targetId with he | ⟨-, he⟩
    · rwa [he]
    · rw [he]; exact h.move
  | markShown key =>
    change (s.markShown key).grouping.Marked
    rw [grouping_markShown]; exact h.unmark
  | clear => exact marked_fresh _

end Stage

/-! ### The process -/

namespace World

open Stage

/-- The calls that make `_next_id` wrap. -/
def Wraps [DecidableEq κ] (w : World ι κ) : Event ι κ → Prop
  | .on i c => (w.stage i).Wraps c
  | .adopt i j => (w.models i).active = none ∧ w.heap.nextId = maxId ∧
      ∃ oa ∈ (w.models j).active, (w.heap.sets oa).windows ≠ []

instance [DecidableEq κ] (w : World ι κ) (e : Event ι κ) : Decidable (w.Wraps e) :=
  match e with
  | .on i c => inferInstanceAs (Decidable ((w.stage i).Wraps c))
  | .adopt _ _ => inferInstanceAs (Decidable (_ ∧ _ ∧ _))

/-- The models have no set id in common. -/
def SeparateIds (w : World ι κ) (i j : ι) : Prop :=
  ∀ r ∈ (w.stage i).refs, ∀ q ∈ (w.stage j).refs, (w.heap.sets r).id ≠ (w.heap.sets q).id

instance (w : World ι κ) (i j : ι) : Decidable (w.SeparateIds i j) :=
  inferInstanceAs (Decidable (∀ r ∈ _, ∀ q ∈ _, _))

/-- Sound, with every flag on a window of its model and the ids of every model in order. -/
structure InOrder (w : World ι κ) : Prop where
  sound : w.Sound
  marked : ∀ i, (w.stage i).grouping.Marked
  numbered : ∀ i, (w.stage i).Numbered

end World

namespace Stage

theorem Numbered.frame {h h' : Heap κ} {m : StageModel κ} (hn : Numbered ⟨h, m⟩)
    (hnext : h.nextId ≤ h'.nextId)
    (hid : ∀ r ∈ (⟨h, m⟩ : Stage κ).refs, (h'.sets r).id = (h.sets r).id) :
    Numbered ⟨h', m⟩ where
  counter := by
    have := hn.counter
    change 0 < h'.nextId
    grind
  pos r hr := by
    change 0 < (h'.sets r).id
    rw [hid r hr]
    exact hn.pos r hr
  below r hr := by
    have : (h.sets r).id < h.nextId := hn.below r hr
    change (h'.sets r).id < h'.nextId
    rw [hid r hr]
    grind
  inj r hr q hq he := by
    change (h'.sets r).id = (h'.sets q).id at he
    rw [hid r hr, hid q hq] at he
    exact hn.inj r hr q hq he

end Stage

namespace World

variable {w : World ι κ} {i j : ι}

theorem inOrder_start {h : Heap κ} (hpos : 0 < h.nextId) : (start h : World ι κ).InOrder where
  sound := sound_start h
  marked _ := Stage.marked_fresh h
  numbered _ := Stage.numbered_fresh hpos

variable [DecidableEq κ]

/-- The ids of a model that takes another one over. -/
theorem InOrder.numbered_adopt (h : w.InOrder) (hd : w.Separate i j) (hids : w.SeparateIds i j)
    (hw : ¬w.Wraps (.adopt i j)) :
    ((w.stage i).adopt (w.models j)).1.Numbered ∧
      w.heap.nextId ≤ ((w.stage i).adopt (w.models j)).1.nextId := by
  have ho := h.sound.owned i
  obtain ⟨h1, h2⟩ := (h.sound.stageApart hd).adopt ho
  have hj := h.numbered j
  have hc := ((h.numbered i).counts ho none).adoptActive ho (w.models j) fun ha hm oa hoa => by
    by_contra hne
    exact hw ⟨ha, hm, oa, hoa, hne⟩
  have hx := Stage.extends_adoptActive (w.stage i) (w.models j)
  have hjr : ∀ q ∈ (w.models j).inactive, q ∈ (w.stage j).refs := fun q hq =>
    Stage.mem_refs.mpr (Or.inr hq)
  have hother : ∀ q ∈ (w.models j).inactive,
      ((((w.stage i).adoptActive (w.models j)).sets q).id = (w.heap.sets q).id) := fun q hq => by
    rw [(h1.others q hq).1]; rfl
  have hmem : ∀ r ∈ ((w.stage i).adopt (w.models j)).1.refs,
      r ∈ ((w.stage i).adoptActive (w.models j)).refs ∨ r ∈ (w.models j).inactive := fun r hr => by
    rw [Stage.mem_refs, h2.active, h2.inactive, List.mem_append] at hr
    rw [Stage.mem_refs]
    rcases hr with hr | hr | hr
    · exact Or.inl (Or.inl hr)
    · exact Or.inl (Or.inr hr)
    · exact Or.inr (List.mem_filter.mp hr).1
  -- A set of ours, or the new one, against a set that is taken over.
  have hcross : ∀ r ∈ ((w.stage i).adoptActive (w.models j)).refs, ∀ q ∈ (w.models j).inactive,
      (((w.stage i).adoptActive (w.models j)).sets r).id ≠ (w.heap.sets q).id := by
    intro r hr q hq
    by_cases hlt : w.heap.nextRef ≤ r
    · have hge := (hc.issued r hr hlt).resolve_right nofun
      have hbelow : (w.heap.sets q).id < w.heap.nextId := hj.below q (hjr q hq)
      change w.heap.nextId ≤ _ at hge
      intro he
      rw [he] at hge
      grind
    · have hr' := (hx.refs r hr).resolve_right hlt
      rw [hx.id r (not_le.mp hlt)]
      exact hids r hr' q (hjr q hq)
  have hle : w.heap.nextId ≤ ((w.stage i).adoptActive (w.models j)).nextId := hc.le
  refine ⟨⟨?_, fun r hr => ?_, fun r hr => ?_, fun r hr q hq he => ?_⟩,
    by rw [h2.toHeap]; exact hle⟩
  · rw [h2.toHeap]; exact hc.numbered.counter
  · rw [h2.toHeap]
    rcases hmem r hr with hr | hr
    · exact hc.numbered.pos r hr
    · rw [hother r hr]; exact hj.pos r (hjr r hr)
  · rw [h2.toHeap]
    rcases hmem r hr with hr | hr
    · exact hc.numbered.below r hr
    · have : (w.heap.sets r).id < w.heap.nextId := hj.below r (hjr r hr)
      rw [hother r hr]
      grind
  · rw [h2.toHeap] at he
    rcases hmem r hr with hr | hr <;> rcases hmem q hq with hq | hq
    · exact hc.numbered.inj r hr q hq he
    · rw [hother q hq] at he
      exact absurd he (hcross r hr q hq)
    · rw [hother r hr] at he
      exact absurd he.symm (hcross q hq r hr)
    · rw [hother r hr, hother q hq] at he
      exact hj.inj r (hjr r hr) q (hjr q hq) he

variable [DecidableEq ι]

/-- Any call at any time, and `adopt` of a model that shares no window and no set id. -/
def Legal (w : World ι κ) : Event ι κ → Prop
  | .on _ _ => True
  | .adopt i j => w.Separate i j ∧ w.SeparateIds i j

theorem inOrder_step (w : World ι κ) (e : Event ι κ) (h : w.InOrder)
    (hl : w.Legal e ∧ ¬w.Wraps e) : (w.step e).InOrder := by
  obtain ⟨hl, hw⟩ := hl
  have hfair : w.Fair e := by
    cases e with
    | on i c => trivial
    | adopt i j => exact hl.1
  have hsound := sound_step w e h.sound hfair
  cases e with
  | on i c =>
    have ho := h.sound.owned i
    have hc := (h.numbered i).call ho c hw
    have hx := Stage.extends_call ho c
    refine ⟨hsound, fun l => ?_, fun l => ?_⟩
    · by_cases hli : l = i
      · subst hli
        rw [show (w.step (.on l c)).stage l = _ from stage_put_self _]
        exact Stage.marked_call ho (h.marked l) c
      · rw [show (w.step (.on i c)).stage l = _ from stage_put_of_ne _ hli]
        exact h.marked l
    · by_cases hli : l = i
      · subst hli
        rw [show (w.step (.on l c)).stage l = _ from stage_put_self _]
        exact hc.numbered
      · rw [show (w.step (.on i c)).stage l = _ from stage_put_of_ne _ hli]
        exact (h.numbered l).frame hc.le fun r hr => hx.id r ((h.sound.owned l).fresh r hr)
  | adopt i j =>
    obtain ⟨hd, hids⟩ := hl
    have ho := h.sound.owned i
    have hap := h.sound.stageApart hd
    obtain ⟨h1, h2⟩ := hap.adopt ho
    obtain ⟨hn, hle⟩ := h.numbered_adopt hd hids hw
    refine ⟨hsound, fun l => ?_, fun l => ?_⟩
    · by_cases hlj : l = j
      · subst hlj
        rw [stage_adopt_other]
        exact Stage.marked_fresh _
      · by_cases hli : l = i
        · subst hli
          rw [stage_adopt_self hd.1, hap.grouping_adopt ho (h.marked j)]
          exact (h.marked l).absorb (h.marked j) fun k hk => h1.active_some k hk.1 hk.2
        · rw [stage_adopt_of_ne hli hlj]
          exact h.marked l
    · by_cases hlj : l = j
      · subst hlj
        rw [stage_adopt_other]
        exact Stage.numbered_fresh hn.counter
      · by_cases hli : l = i
        · subst hli
          rwa [stage_adopt_self hd.1]
        · rw [stage_adopt_of_ne hli hlj]
          refine (h.numbered l).frame hle fun r hr => ?_
          rw [h2.toHeap]
          exact (Stage.extends_adoptActive (w.stage i) (w.models j)).id r
            ((h.sound.owned l).fresh r hr)

end World

/-! ### What an observer sees -/

namespace Stage

variable {s : Stage κ}

/-- The model has no window, no set with a window, and no flag. -/
def OwnsNothing (s : Stage κ) : Prop :=
  (∀ k, s.owner k = none) ∧ s.allWindows = [] ∧ s.hidden = ∅ ∧ s.userMinimized = ∅

theorem ownsNothing_fresh (h : Heap κ) : OwnsNothing ⟨h, .fresh⟩ := ⟨fun _ => rfl, rfl, rfl, rfl⟩

theorem Owned.nodup_allWindows (h : s.Owned) : s.allWindows.Nodup := by
  refine List.nodup_flatMap.mpr ⟨h.windows_nodup, ?_⟩
  refine h.nodup.pairwise_of_forall_ne fun r hr q hq hne => ?_
  exact fun k hk hk' => h.not_mem_of_ne hr hq hne hk hk'

variable [DecidableEq κ]

/-- Ownership, flags and ids as they should be. -/
structure Partition (s : Stage κ) : Prop where
  /-- A key of `_owner` is once in the lists, in the set `_owner` maps it to. -/
  once : ∀ k r, s.owner k = some r →
    r ∈ s.refs ∧ k ∈ (s.sets r).windows ∧ s.allWindows.count k = 1
  /-- No other key is in any list. -/
  only : ∀ k, s.owner k = none → k ∉ s.allWindows
  /-- The flags are on keys of `_owner`. -/
  flags : ∀ k, k ∈ s.hidden ∨ k ∈ s.userMinimized → s.owner k ≠ none
  active_apart : ∀ a, s.active = some a → a ∉ s.inactive
  ids_nodup : (s.refs.map fun r => (s.sets r).id).Nodup
  no_empty : ∀ r ∈ s.inactive, (s.sets r).windows ≠ []

theorem Owned.partition (h : s.Owned) (hm : s.grouping.Marked) (hn : s.Numbered) (he : s.NoEmpty) :
    s.Partition where
  once k r hk := by
    obtain ⟨hr, hkr⟩ := (h.owner_iff k r).mp hk
    refine ⟨hr, hkr, List.count_eq_one_of_mem h.nodup_allWindows ?_⟩
    exact List.mem_flatMap.mpr ⟨r, hr, hkr⟩
  only k hk hmem := by
    obtain ⟨r, hr, hkr⟩ := List.mem_flatMap.mp hmem
    exact h.not_mem_of_owner_none hr hk hkr
  flags k hk := hk.elim (fun hk => hm.hidden_grouped hk) fun hk => hm.minimized_grouped hk
  active_apart a ha hin := by
    have := h.nodup
    rw [refs_active ha, List.nodup_cons] at this
    exact this.1 hin
  ids_nodup := h.nodup.map_on hn.inj
  no_empty := he

end Stage

namespace World

variable [DecidableEq ι] [DecidableEq κ]

/-- **Ownership is a partition.** In every run in which `_next_id` does not wrap, after every call
every model is a partition, and a model that has just been emptied owns nothing. -/
theorem run_partition (es : List (Event ι κ))
    (hg : Transition.Guarded step (fun w e => w.Legal e ∧ ¬w.Wraps e) (start .initial) es) :
    (∀ i, ((Transition.run step (start .initial) es).stage i).Partition) ∧
      ∀ es' i, (es = es' ++ [.on i .clear] ∨ ∃ j, es = es' ++ [.adopt j i]) →
        ((Transition.run step (start .initial) es).stage i).OwnsNothing := by
  have hrun :=
    hg.invariant inOrder_step (inOrder_start (h := .initial) (by decide : (0 : UInt32) < 1))
  refine ⟨fun i => (hrun.sound.owned i).partition (hrun.marked i) (hrun.numbered i)
    (hrun.sound.noEmpty i), ?_⟩
  rintro es' i (rfl | ⟨j, rfl⟩)
  · rw [Transition.run_append]
    change ((World.put _ i (Stage.call _ .clear).1).stage i).OwnsNothing
    rw [stage_put_self]
    exact Stage.ownsNothing_fresh _
  · rw [Transition.run_append]
    change ((World.step _ (.adopt j i)).stage i).OwnsNothing
    rw [stage_adopt_other]
    exact Stage.ownsNothing_fresh _

/-- Two models, one restored under a tag that is out of order, then merged. -/
theorem run_partition_merge : Stage.Partition ((Transition.run step (start .initial)
    [.on false (.restoreWindow 0 7 true true), .on false (.restoreWindow 1 3 false false),
      .on false (.restoreFinish 3 none), .on false (.moveWindow 1 0), .on true (.addWindow 2),
      .on true (.addWindow 3), .on true (.moveWindow 3 0), .adopt false true,
      .on false (.removeWindow 2)] : World Bool (Fin 4)).stage false) := by
  refine (run_partition _ ?_).1 false
  refine And.intro ⟨trivial, ?_⟩ <| And.intro ⟨trivial, ?_⟩ <| And.intro ⟨trivial, ?_⟩ <|
    And.intro ⟨trivial, ?_⟩ <| And.intro ⟨trivial, ?_⟩ <| And.intro ⟨trivial, ?_⟩ <|
    And.intro ⟨trivial, ?_⟩ <| And.intro ⟨⟨⟨?_, ?_⟩, ?_⟩, ?_⟩ <| And.intro ⟨trivial, ?_⟩ trivial <;>
    decide

/-- A tag of `uint.MAX` takes the counter to `0`, and the second set created after it has the id of
the active set. -/
theorem not_partition_of_wrap : ¬∀ es : List (Event Unit String),
    Transition.Guarded step Legal (start .initial) es →
      ∀ i, ((Transition.run step (start .initial) es).stage i).Partition := by
  intro h
  have hp := h [.on () (.restoreWindow "a" 1 false false),
    .on () (.restoreWindow "b" 4294967295 false false), .on () (.restoreFinish 1 none),
    .on () (.moveWindow "b" 0), .on () (.moveWindow "a" 0)]
    ⟨trivial, trivial, trivial, trivial, trivial, trivial⟩ ()
  exact absurd hp.ids_nodup (by decide)

end World

end SingularityShell
