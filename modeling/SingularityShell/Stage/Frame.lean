import SingularityShell.Stage.Methods

/-!
# What the methods of one `StageModel` leave alone

All models of a process live in one heap, so a method of one of them must not disturb the sets of
another. `Extends s s'` says that going from `s` to `s'` only touched the sets the model holds and
sets allocated on the way, and that no set ever changed its id.
-/

namespace SingularityShell

namespace Stage

variable {κ : Type*} {s s' s'' : Stage κ} {r : ℕ} {k : κ}

/-- The footprint of a method. -/
structure Extends (s s' : Stage κ) : Prop where
  nextRef : s.nextRef ≤ s'.nextRef
  /-- The sets of other models are untouched. -/
  frame : ∀ r < s.nextRef, r ∉ s.refs → s'.sets r = s.sets r
  /-- The model holds the sets it held, or new ones. -/
  refs : ∀ r ∈ s'.refs, r ∈ s.refs ∨ s.nextRef ≤ r
  /-- The id of a set is fixed at construction. -/
  id : ∀ r < s.nextRef, (s'.sets r).id = (s.sets r).id

theorem Extends.refl (s : Stage κ) : Extends s s :=
  ⟨le_rfl, fun _ _ _ => rfl, fun _ h => Or.inl h, fun _ _ => rfl⟩

theorem Extends.trans (h : Extends s s') (h' : Extends s' s'') : Extends s s'' where
  nextRef := h.nextRef.trans h'.nextRef
  frame r hr hm := by
    have hm' : r ∉ s'.refs := fun hc => (h.refs r hc).elim hm fun hle => by omega
    rw [h'.frame r (lt_of_lt_of_le hr h.nextRef) hm', h.frame r hr hm]
  refs r hr := by
    rcases h'.refs r hr with hr | hr
    · exact h.refs r hr
    · exact Or.inr (h.nextRef.trans hr)
  id r hr := by rw [h'.id r (lt_of_lt_of_le hr h.nextRef), h.id r hr]

/-- The heap is not touched and no set is added. -/
theorem extends_of_sub (hsets : s'.sets = s.sets) (hnext : s'.nextRef = s.nextRef)
    (hrefs : ∀ r ∈ s'.refs, r ∈ s.refs) : Extends s s' :=
  ⟨hnext.ge, fun r _ _ => by rw [hsets], fun r hr => Or.inl (hrefs r hr), fun r _ => by rw [hsets]⟩

/-- One set is allocated. -/
theorem extends_of_new (id : UInt32) (hsets : s'.sets = Function.update s.sets s.nextRef ⟨id, []⟩)
    (hnext : s'.nextRef = s.nextRef + 1) (hrefs : ∀ r ∈ s'.refs, r ∈ s.refs ∨ r = s.nextRef) :
    Extends s s' := by
  have hold : ∀ r < s.nextRef, s'.sets r = s.sets r := fun r hr => by
    rw [hsets, Function.update_of_ne (by omega)]
  refine ⟨by omega, fun r hr _ => hold r hr, fun r hr => ?_, fun r hr => by rw [hold r hr]⟩
  exact (hrefs r hr).imp_right fun h => h.ge

theorem extends_reserveId (s : Stage κ) (id : UInt32) : Extends s (s.reserveId id) := by
  unfold reserveId
  split
  · exact extends_of_sub rfl rfl fun _ h => h
  · exact Extends.refl s

theorem extends_ensureActive (s : Stage κ) : Extends s s.ensureActive.1 := by
  unfold ensureActive
  split
  · exact Extends.refl s
  · next ha =>
    refine extends_of_new s.nextId rfl rfl fun r hr => ?_
    rw [refs_active rfl, List.mem_cons] at hr
    rw [refs_none ha]
    exact hr.symm

theorem extends_reorder (s : Stage κ) (order : Option (List UInt32)) :
    Extends s (s.reorder order) := by
  obtain ⟨l, hl, hmem, -⟩ := reorder_eq s order
  rw [hl]
  refine extends_of_sub rfl rfl fun r hr => ?_
  rw [mem_refs] at hr ⊢
  exact hr.imp_right (hmem r).mp

theorem extends_dropIfEmpty (s : Stage κ) (r : ℕ) : Extends s (s.dropIfEmpty r) := by
  unfold dropIfEmpty
  split
  · refine extends_of_sub rfl rfl fun q hq => ?_
    rw [mem_refs] at hq ⊢
    exact hq.imp_right List.mem_of_mem_erase
  · exact Extends.refl s

theorem extends_moveTarget (s : Stage κ) (targetId : UInt32) :
    Extends s (s.moveTarget targetId).1 := by
  unfold moveTarget
  split
  · exact Extends.refl s
  · refine extends_of_new s.nextId rfl rfl fun r hr => ?_
    change r ∈ s.active.toList ++ s.nextRef :: s.inactive at hr
    simp only [refs, List.mem_append, List.mem_cons] at hr ⊢
    tauto

theorem extends_findOrAdd (s : Stage κ) (id : UInt32) :
    Extends s (s.findOrAdd id).1 ∧ (s.findOrAdd id).2 ∈ (s.findOrAdd id).1.refs := by
  unfold findOrAdd
  split
  · next r hr => exact ⟨Extends.refl s, (findSet_mem hr).1⟩
  · refine ⟨extends_of_new id rfl rfl fun r hr => ?_, ?_⟩
    · change r ∈ s.active.toList ++ (s.inactive ++ [s.nextRef]) at hr
      rwa [← List.append_assoc, List.mem_append, List.mem_singleton] at hr
    · change s.nextRef ∈ s.active.toList ++ (s.inactive ++ [s.nextRef])
      simp

section
variable [DecidableEq κ]

theorem extends_pushWindow (hr : r ∈ s.refs) (k : κ) : Extends s (s.pushWindow r k) :=
  ⟨le_rfl, fun q _ hq => Function.update_of_ne (fun he : q = r => hq (he.symm ▸ hr)) _ _,
    fun _ h => Or.inl h, fun q _ => id_pushWindow q⟩

theorem extends_dropWindow (hr : r ∈ s.refs) (k : κ) : Extends s (s.dropWindow r k) :=
  ⟨le_rfl, fun q _ hq => Function.update_of_ne (fun he : q = r => hq (he.symm ▸ hr)) _ _,
    fun _ h => Or.inl h, fun q _ => id_dropWindow q⟩

theorem extends_pushAll (hr : r ∈ s.refs) (keys : List κ) : Extends s (s.pushAll r keys) :=
  ⟨le_rfl, fun q _ hq => Function.update_of_ne (fun he : q = r => hq (he.symm ▸ hr)) _ _,
    fun _ h => Or.inl h, fun q _ => id_pushAll s r keys q⟩

theorem extends_flagRestored (s : Stage κ) (k : κ) (minimized hidden : Bool) :
    Extends s (s.flagRestored k minimized hidden) := by
  unfold flagRestored
  split
  · exact extends_of_sub rfl rfl fun _ h => h
  · split
    · exact extends_of_sub rfl rfl fun _ h => h
    · exact Extends.refl s

theorem extends_addWindow (s : Stage κ) (k : κ) : Extends s (s.addWindow k) := by
  unfold addWindow
  split
  · exact Extends.refl s
  · exact (extends_ensureActive s).trans
      (extends_pushWindow (mem_refs.mpr (Or.inl (ensureActive_active s))) k)

theorem extends_restoreWindow (s : Stage κ) (k : κ) (setId : UInt32) (minimized hidden : Bool) :
    Extends s (s.restoreWindow k setId minimized hidden) := by
  unfold restoreWindow
  split
  · exact Extends.refl s
  · split
    · exact (extends_addWindow s k).trans (extends_flagRestored _ _ _ _)
    · have h := extends_findOrAdd (s.reserveId setId) setId
      exact (((extends_reserveId s setId).trans h.1).trans (extends_pushWindow h.2 k)).trans
        (extends_flagRestored _ _ _ _)

theorem extends_mergeActiveInto {w : ℕ} (hw : w ∈ s.inactive) :
    Extends s (s.mergeActiveInto w) := by
  have hsub : ∀ q ∈ w :: s.inactive.erase w, q ∈ s.refs := fun q hq => by
    rw [mem_refs]
    rcases List.mem_cons.mp hq with rfl | hq
    · exact Or.inr hw
    · exact Or.inr (List.mem_of_mem_erase hq)
  unfold mergeActiveInto
  split
  · exact extends_of_sub rfl rfl fun q hq => hsub q (by rwa [refs_active rfl] at hq)
  · next a ha =>
    rw [foldl_pushWindow]
    exact (extends_pushAll (mem_refs.mpr (Or.inr hw)) _).trans
      (extends_of_sub rfl rfl fun q hq => hsub q (by rwa [refs_active rfl] at hq))

theorem extends_chooseActive (s : Stage κ) (activeId : UInt32) :
    Extends s (s.chooseActive activeId).1 := by
  unfold chooseActive
  refine Extends.trans ?_ (extends_ensureActive _)
  split
  · next w hw =>
    split
    · exact Extends.refl s
    · next hne => exact extends_mergeActiveInto ((mem_refs.mp (wantedSet_mem hw)).resolve_left hne)
  · exact Extends.refl s

theorem extends_restoreFinish (s : Stage κ) (activeId : UInt32) (order : Option (List UInt32)) :
    Extends s (s.restoreFinish activeId order).1 := by
  refine ((extends_chooseActive s activeId).trans (extends_reorder _ order)).trans
    (extends_of_sub rfl rfl fun r hr => ?_)
  rw [mem_refs] at hr ⊢
  exact hr.imp_right fun hm => (List.mem_filter.mp hm).1

theorem extends_removeWindow (h : s.Owned) (k : κ) : Extends s (s.removeWindow k) := by
  unfold removeWindow
  split
  · exact Extends.refl s
  · next r hr =>
    have hmem := ((h.owner_iff k r).mp hr).1
    refine ((extends_dropWindow hmem k).trans ?_).trans (extends_dropIfEmpty _ r)
    exact extends_of_sub rfl rfl fun _ h => h

theorem extends_setUserMinimized (s : Stage κ) (k : κ) (b : Bool) :
    Extends s (s.setUserMinimized k b) := by
  unfold setUserMinimized
  split
  · exact Extends.refl s
  · split <;> exact extends_of_sub rfl rfl fun _ h => h

theorem extends_activate (s : Stage κ) (id : UInt32) : Extends s (s.activate id).1 := by
  rcases activate_cases s id with he | ⟨target, hin, -, -, he, hsets, -, hnext, hact, hinact⟩
  · rw [he]; exact Extends.refl s
  · rw [he]
    refine extends_of_sub hsets hnext fun q hq => ?_
    rw [refs_active hact, hinact, List.mem_cons, List.mem_append, mem_frontSet] at hq
    rw [mem_refs]
    rcases hq with rfl | hq | hq
    · exact Or.inr hin
    · exact Or.inl hq.1
    · exact Or.inr (List.mem_of_mem_erase hq)

theorem extends_moveWindow (h : s.Owned) (k : κ) (targetId : UInt32) :
    Extends s (s.moveWindow k targetId).1 := by
  unfold moveWindow
  split
  · exact Extends.refl s
  · next source hk =>
    split
    · exact Extends.refl s
    · obtain ⟨ht, hmem, hown⟩ := h.moveTarget targetId
      have hs : source ∈ (s.moveTarget targetId).1.refs :=
        ((ht.owner_iff k source).mp (hown ▸ hk)).1
      obtain ⟨hidden, he⟩ := moveFlags_eq
        (((s.moveTarget targetId).1.dropWindow source k).pushWindow (s.moveTarget targetId).2 k)
        k source (s.moveTarget targetId).2
      have hpush : Extends s
          (((s.moveTarget targetId).1.dropWindow source k).pushWindow
            (s.moveTarget targetId).2 k) :=
        ((extends_moveTarget s targetId).trans (extends_dropWindow hs k)).trans
          (extends_pushWindow (s := (s.moveTarget targetId).1.dropWindow source k) hmem k)
      refine (hpush.trans ?_).trans (extends_dropIfEmpty _ source)
      rw [he]
      exact extends_of_sub rfl rfl fun _ h => h

theorem extends_adoptActive (s : Stage κ) (other : StageModel κ) :
    Extends s (s.adoptActive other) := by
  rcases adoptActive_eq s other with ⟨he, -⟩ | ⟨oa, -, -, he⟩
  · rw [he]; exact Extends.refl s
  · rw [he]
    refine ((extends_ensureActive s).trans
      (extends_pushAll (mem_refs.mpr (Or.inl (ensureActive_active s))) (s.sets oa).windows)).trans
        ?_
    exact extends_of_sub rfl rfl fun _ h => h

end

end Stage

end SingularityShell
