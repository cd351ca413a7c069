import SingularityShell.Bar.Layout

/-!
# Every item of a bar in one place

A new layout puts every allowed item into one section, once, and no edit loses or doubles an item. A
move reports whether it has changed the layout and leaves the order of all other items.

## Main definitions

* `Bar.Placed` — every allowed item in one section, once, and nothing else
* `Bar.KeepsSaved` — what is saved stays in its section and in its order

## Main results

* `Bar.placed_new`, `Bar.keepsSaved_new` — new layouts
* `Bar.move_spec` — what a move does with a placed layout
* `Bar.layout_contract` — the headline, for every layout that edits reach
-/

namespace SingularityShell

namespace Bar

open SingularityShell.Lists Transition

variable {α : Type*} [DecidableEq α]

/-- Every allowed item is in exactly one section, once, and nothing else is in any. -/
structure Placed (layout : BarLayout α) : Prop where
  nodup : ∀ sect, (layout.getItems sect).Nodup
  unique : ∀ {sect other item}, item ∈ layout.getItems sect → item ∈ layout.getItems other →
    sect = other
  mem_iff : ∀ item, (∃ sect, item ∈ layout.getItems sect) ↔ item ∈ layout.allowedItems

/-- An allowed item stays in the first section it is saved for, and the saved items of a section
stay in the order of the saved list. -/
structure KeepsSaved (saved : BarSection → List α) (layout : BarLayout α) : Prop where
  section_eq : ∀ sect, ∀ item ∈ layout.allowedItems, item ∈ saved sect →
    (∀ other ∈ sect.before, item ∉ saved other) → item ∈ layout.getItems sect
  order : ∀ sect, ∀ x ∈ saved sect, ∀ y ∈ saved sect, x ∈ layout.getItems sect →
    y ∈ layout.getItems sect →
      ((layout.getItems sect).idxOf x < (layout.getItems sect).idxOf y ↔
        (saved sect).idxOf x < (saved sect).idxOf y)

/-! ### New layouts -/

omit [DecidableEq α] in
theorem BarLayout.mem_items {layout : BarLayout α} {item : α} :
    item ∈ layout.items ↔ ∃ sect, item ∈ layout.getItems sect := by
  constructor
  · intro h
    simp only [items, List.mem_append] at h
    rcases h with (h | h) | h
    exacts [⟨.left, h⟩, ⟨.center, h⟩, ⟨.right, h⟩]
  · rintro ⟨_ | _ | _, h⟩ <;> simp only [items, List.mem_append]
    exacts [.inl (.inl h), .inl (.inr h), .inr h]

section
variable {allowedItems : List α} {saved savedPart otherPart : BarSection → List α}
  {layout : BarLayout α}

theorem Parts.placed (h : Parts allowedItems saved layout savedPart otherPart) :
    Placed layout := by
  obtain ⟨hlc, hr, hdr⟩ := List.nodup_append.mp h.nodup
  obtain ⟨hl, hc, hdl⟩ := List.nodup_append.mp hlc
  refine ⟨?_, ?_, ?_⟩
  · rintro (_ | _ | _)
    exacts [hl, hc, hr]
  · have hlr : ∀ item ∈ layout.leftItems, item ∉ layout.rightItems := fun item hi hj =>
      hdr item (List.mem_append_left _ hi) item hj rfl
    have hcr : ∀ item ∈ layout.centerItems, item ∉ layout.rightItems := fun item hi hj =>
      hdr item (List.mem_append_right _ hi) item hj rfl
    have hlc : ∀ item ∈ layout.leftItems, item ∉ layout.centerItems := fun item hi hj =>
      hdl item hi item hj rfl
    rintro (_ | _ | _) (_ | _ | _) item hs ho
    exacts [rfl, absurd ho (hlc _ hs), absurd ho (hlr _ hs), absurd hs (hlc _ ho), rfl,
      absurd ho (hcr _ hs), absurd hs (hlr _ ho), absurd hs (hcr _ ho), rfl]
  · intro item
    rw [← BarLayout.mem_items, h.mem_items, h.allowedItems_eq]

/-- A saved item of a section is in the part the section takes from its saved list. -/
theorem Parts.mem_savedPart (h : Parts allowedItems saved layout savedPart otherPart)
    {sect : BarSection} {item : α} (hs : item ∈ saved sect) (hi : item ∈ layout.getItems sect) :
    item ∈ savedPart sect := by
  obtain ⟨seen, hpart, hseen⟩ := h.savedPart_eq sect
  have hallowed : item ∈ allowedItems := (h.mem_items item).mp (BarLayout.mem_items.mpr ⟨sect, hi⟩)
  rw [hpart]
  refine mem_unseen.mpr ⟨hs, by simpa using hallowed, fun hseen' => ?_⟩
  obtain ⟨other, hbefore, hother⟩ := hseen item hseen'
  have heq : other = sect :=
    h.placed.unique (h.getItems_eq other ▸ List.mem_append_left _ hother) hi
  revert hbefore
  rw [heq]
  cases sect <;> simp [BarSection.before]

theorem Parts.keepsSaved (h : Parts allowedItems saved layout savedPart otherPart) :
    KeepsSaved saved layout := by
  constructor
  · intro sect item hallowed hs hother
    obtain ⟨seen, hpart, hseen⟩ := h.savedPart_eq sect
    rw [h.getItems_eq, hpart]
    refine List.mem_append_left _ (mem_unseen.mpr ⟨hs, ?_, fun hseen' => ?_⟩)
    · simpa [h.allowedItems_eq] using hallowed
    · obtain ⟨other, hbefore, hmem⟩ := hseen item hseen'
      obtain ⟨seen', hpart', -⟩ := h.savedPart_eq other
      rw [hpart'] at hmem
      exact hother other hbefore (mem_unseen.mp hmem).1
  · intro sect x hx y hy hix hiy
    have hx' := h.mem_savedPart hx hix
    have hy' := h.mem_savedPart hy hiy
    obtain ⟨seen, hpart, -⟩ := h.savedPart_eq sect
    rw [h.getItems_eq, List.idxOf_append_of_mem hx', List.idxOf_append_of_mem hy']
    rw [hpart] at hx' hy' ⊢
    exact idxOf_unseen_lt_iff hx' hy'

end

variable (allowedItems defaultLeft defaultCenter defaultRight : List α)
  (savedLeft savedCenter savedRight : List α)

theorem placed_new : Placed (BarLayout.new allowedItems defaultLeft defaultCenter defaultRight
    savedLeft savedCenter savedRight) := by
  obtain ⟨_, _, h⟩ := exists_parts allowedItems defaultLeft defaultCenter defaultRight savedLeft
    savedCenter savedRight
  exact h.placed

theorem keepsSaved_new : KeepsSaved (bySection savedLeft savedCenter savedRight)
    (BarLayout.new allowedItems defaultLeft defaultCenter defaultRight savedLeft savedCenter
      savedRight) := by
  obtain ⟨_, _, h⟩ := exists_parts allowedItems defaultLeft defaultCenter defaultRight savedLeft
    savedCenter savedRight
  exact h.keepsSaved

/-- A layout is built again from its own lists. -/
theorem Placed.new_getItems {layout : BarLayout α} (h : Placed layout) :
    BarLayout.new layout.allowedItems defaultLeft defaultCenter defaultRight
      (layout.getItems .left) (layout.getItems .center) (layout.getItems .right) = layout := by
  have hself : ∀ sect, ∀ seen : Finset α,
      (∀ item ∈ seen, ∃ other, other ≠ sect ∧ item ∈ layout.getItems other) →
      unseen (· ∈ layout.allowedItems.toFinset) (layout.getItems sect) seen =
        layout.getItems sect := by
    intro sect seen hseen
    refine unseen_eq_self (h.nodup sect) fun item hi => ⟨?_, fun hs => ?_⟩
    · simpa using (h.mem_iff item).mp ⟨sect, hi⟩
    · obtain ⟨other, hne, ho⟩ := hseen item hs
      exact hne (h.unique ho hi)
  have hl := hself .left ∅ (by simp)
  have hc := hself .center (layout.getItems .left).toFinset fun item hi =>
    ⟨.left, by decide, by simpa using hi⟩
  have hr := hself .right ((layout.getItems .left).toFinset ∪ (layout.getItems .center).toFinset)
    fun item hi => by
      rcases Finset.mem_union.mp hi with hi | hi
      exacts [⟨.left, by decide, by simpa using hi⟩, ⟨.center, by decide, by simpa using hi⟩]
  -- After the saved lists everything that is allowed was seen.
  have hnil : ∀ (p : α → Bool) (source : List α), (∀ item ∈ source, p item →
      item ∈ layout.allowedItems) → unseen p source ((layout.getItems .left).toFinset ∪
        (layout.getItems .center).toFinset ∪ (layout.getItems .right).toFinset) = [] := by
    refine fun p source hp => unseen_eq_nil fun item hi hpi => ?_
    obtain ⟨_ | _ | _, hs⟩ := (h.mem_iff item).mpr (hp item hi hpi) <;> simp [hs]
  have hdefault : ∀ source : List α, unseen (· ∈ layout.allowedItems.toFinset) source
      ((layout.getItems .left).toFinset ∪ (layout.getItems .center).toFinset ∪
        (layout.getItems .right).toFinset) = [] := fun source =>
    hnil _ source fun item _ hi => by simpa using hi
  have hrest := hnil (fun _ => true) layout.allowedItems fun item hi _ => hi
  simp only [BarLayout.new, appendValid, appendMissing, appendItems_eq, List.nil_append,
    Finset.empty_union, hl, hc, hr, hdefault, hrest, List.append_nil, List.toFinset_nil,
    Finset.union_empty]
  rfl

/-! ### Edits -/

namespace BarLayout

omit [DecidableEq α] in
theorem getItems_setItems (layout : BarLayout α) (sect other : BarSection) (items : List α) :
    (layout.setItems sect items).getItems other =
      if other = sect then items else layout.getItems other := by
  cases sect <;> cases other <;> rfl

omit [DecidableEq α] in
@[simp] theorem allowedItems_setItems (layout : BarLayout α) (sect : BarSection)
    (items : List α) : (layout.setItems sect items).allowedItems = layout.allowedItems := by
  cases sect <;> rfl

omit [DecidableEq α] in
/-- A layout is its lists. -/
theorem eq_of_getItems {layout layout' : BarLayout α}
    (ha : layout.allowedItems = layout'.allowedItems)
    (h : ∀ sect, layout.getItems sect = layout'.getItems sect) : layout = layout' := by
  cases layout
  cases layout'
  simp only [mk.injEq]
  exact ⟨ha, h .left, h .center, h .right⟩

end BarLayout

section
variable {layout : BarLayout α} {item : α}

theorem Placed.getSection_eq (h : Placed layout) {sect : BarSection}
    (hi : item ∈ layout.getItems sect) : layout.getSection item = sect := by
  rw [BarLayout.getSection]
  split
  · next hl => exact h.unique (show item ∈ layout.getItems .left from hl) hi
  · next hl =>
    split
    · next hr => exact h.unique (show item ∈ layout.getItems .right from hr) hi
    · next hr =>
      cases sect with
      | left => exact absurd hi hl
      | center => rfl
      | right => exact absurd hi hr

theorem Placed.erase_eq (h : Placed layout) {sect other : BarSection} (hne : other ≠ sect)
    (hi : item ∈ layout.getItems sect) :
    (layout.getItems other).erase item = layout.getItems other :=
  List.erase_of_not_mem fun ho => hne (h.unique ho hi)

end

/-- Where a move puts an item into the rest of the target section. -/
def landing (layout : BarLayout α) (item : α) (targetSection : BarSection) (targetIndex : ℤ) : ℕ :=
  let targetIndex :=
    if item ∈ layout.getItems targetSection ∧
      targetIndex > (layout.getItems targetSection).idxOf item then targetIndex - 1
    else targetIndex
  (max 0 (min targetIndex ((layout.getItems targetSection).erase item).length)).toNat

theorem landing_le (layout : BarLayout α) (item : α) (targetSection : BarSection)
    (targetIndex : ℤ) : landing layout item targetSection targetIndex ≤
      ((layout.getItems targetSection).erase item).length := by
  simp only [landing]
  omega

theorem indexOf_of_mem {items : List α} {item : α} (h : item ∈ items) :
    indexOf items item = items.idxOf item := if_pos h

section
variable {layout : BarLayout α} {item : α} {sect : BarSection}

theorem move_of_notMem (h : item ∉ layout.allowedItems) (target : BarSection) (index : ℤ) :
    layout.move item target index = (false, layout) := if_pos h

/-- What a move does with an item of the section `sect`: the item leaves its place and stands in the
target section at its landing, and the value says whether that is another place. -/
theorem move_spec (h : Placed layout) (hi : item ∈ layout.getItems sect) (target : BarSection)
    (index : ℤ) :
    ((layout.move item target index).1 = true ↔
      sect ≠ target ∨ (layout.getItems sect).idxOf item ≠ landing layout item target index) ∧
    (layout.move item target index).2.allowedItems = layout.allowedItems ∧
    ∀ other, (layout.move item target index).2.getItems other =
      if other = target then
        ((layout.getItems other).erase item).insertIdx (landing layout item target index) item
      else (layout.getItems other).erase item := by
  have hallowed : item ∈ layout.allowedItems := (h.mem_iff item).mp ⟨sect, hi⟩
  have hindex : indexOf (layout.itemsFor sect) item = (layout.getItems sect).idxOf item :=
    indexOf_of_mem hi
  have hmem : item ∈ layout.getItems target ↔ sect = target :=
    ⟨fun ht => h.unique hi ht, fun he => he ▸ hi⟩
  have herase : (layout.itemsFor sect).eraseIdx ((layout.getItems sect).idxOf item) =
      (layout.getItems sect).erase item := eraseIdx_idxOf _
  -- The target list after the removal, whether or not it is the source list.
  have htarget : (layout.setItems sect ((layout.getItems sect).erase item)).itemsFor target =
      (layout.getItems target).erase item := by
    refine (BarLayout.getItems_setItems layout sect target _).trans ?_
    by_cases he : target = sect
    · rw [if_pos he, he]
    · rw [if_neg he, h.erase_eq he hi]
  have hland : landing layout item target index =
      (max 0 (min (if sect = target ∧ index > (layout.getItems sect).idxOf item then index - 1
        else index) (((layout.getItems target).erase item).length : ℤ))).toNat := by
    rw [landing]
    by_cases he : sect = target
    · subst he
      simp [hi]
    · simp [he, hmem]
  have hmove : layout.move item target index =
      (decide (sect ≠ target ∨
        (layout.getItems sect).idxOf item ≠ landing layout item target index),
        (layout.setItems sect ((layout.getItems sect).erase item)).setItems target
          (((layout.getItems target).erase item).insertIdx (landing layout item target index)
            item)) := by
    rw [BarLayout.move, if_neg (not_not_intro hallowed)]
    simp only [h.getSection_eq hi, hindex, Int.toNat_natCast, herase, htarget, ← hland]
    rw [if_neg (by omega)]
    refine Prod.ext (decide_eq_decide.mpr (or_congr_right ?_)) rfl
    rw [hland]
    omega
  rw [hmove]
  refine ⟨by simp, by simp, fun other => ?_⟩
  rw [BarLayout.getItems_setItems]
  by_cases ho : other = target
  · rw [if_pos ho, if_pos ho, ho]
  · rw [if_neg ho, if_neg ho, BarLayout.getItems_setItems]
    by_cases hs : other = sect
    · rw [if_pos hs, hs]
    · rw [if_neg hs, h.erase_eq hs hi]

theorem notMem_erase (h : Placed layout) (item : α) (other : BarSection) :
    item ∉ (layout.getItems other).erase item := fun hm =>
  ((h.nodup other).mem_erase_iff.mp hm).1 rfl

/-- After a move the item is in the target section, and all others are where they were. -/
theorem mem_move (h : Placed layout) (hi : item ∈ layout.getItems sect) (target : BarSection)
    (index : ℤ) (x : α) (other : BarSection) :
    x ∈ (layout.move item target index).2.getItems other ↔
      if x = item then other = target else x ∈ layout.getItems other := by
  rw [(move_spec h hi target index).2.2]
  split
  · next ho =>
    rw [List.mem_insertIdx (ho ▸ landing_le layout item target index),
      (h.nodup other).mem_erase_iff]
    by_cases hx : x = item <;> simp [hx, ho]
  · next ho =>
    rw [(h.nodup other).mem_erase_iff]
    by_cases hx : x = item <;> simp [hx, ho]

theorem placed_move (h : Placed layout) (item : α) (target : BarSection) (index : ℤ) :
    Placed (layout.move item target index).2 := by
  by_cases hallowed : item ∈ layout.allowedItems
  · obtain ⟨sect, hi⟩ := (h.mem_iff item).mpr hallowed
    obtain ⟨-, hsame, hlists⟩ := move_spec h hi target index
    refine ⟨fun other => ?_, fun {s t x} hs ht => ?_, fun x => ?_⟩
    · rw [hlists]
      split
      · next ho =>
        refine (List.perm_insertIdx item _ (ho ▸ landing_le layout item target index)).nodup_iff.mpr
          (List.nodup_cons.mpr ⟨notMem_erase h item other, (h.nodup other).erase item⟩)
      · exact (h.nodup other).erase item
    · rw [mem_move h hi] at hs ht
      split at hs
      · next hx =>
        rw [if_pos hx] at ht
        exact hs.trans ht.symm
      · next hx =>
        rw [if_neg hx] at ht
        exact h.unique hs ht
    · simp only [mem_move h hi, hsame]
      by_cases hx : x = item
      · simp [hx, hallowed]
      · simpa [hx] using h.mem_iff x
  · rw [move_of_notMem hallowed]
    exact h

/-- **A move reports a change.** -/
theorem move_eq_true_iff (h : Placed layout) (item : α) (target : BarSection) (index : ℤ) :
    (layout.move item target index).1 = true ↔ (layout.move item target index).2 ≠ layout := by
  by_cases hallowed : item ∈ layout.allowedItems
  · obtain ⟨sect, hi⟩ := (h.mem_iff item).mpr hallowed
    obtain ⟨hflag, hsame, hlists⟩ := move_spec h hi target index
    rw [hflag]
    constructor
    · intro hchange heq
      have hst : sect = target := by
        simpa [heq, hi] using mem_move h hi target index item sect
      subst hst
      have hl := hlists sect
      rw [if_pos rfl, heq] at hl
      have hidx := idxOf_insertIdx (notMem_erase h item sect) (landing_le layout item sect index)
      rw [← hl] at hidx
      exact hchange.elim (· rfl) fun hne => hne hidx
    · intro hchange
      by_contra hsame'
      rw [not_or, not_not, not_not] at hsame'
      obtain ⟨rfl, hland⟩ := hsame'
      refine hchange (BarLayout.eq_of_getItems hsame fun other => ?_)
      rw [hlists]
      split
      · next ho =>
        subst ho
        rw [← hland, ← eraseIdx_idxOf]
        exact insertIdx_eraseIdx_idxOf hi
      · next ho => exact h.erase_eq ho hi
  · simp [move_of_notMem hallowed]

theorem filter_move (h : Placed layout) (item : α) (target : BarSection) (index : ℤ)
    (other : BarSection) :
    ((layout.move item target index).2.getItems other).filter (· ≠ item) =
      (layout.getItems other).filter (· ≠ item) := by
  by_cases hallowed : item ∈ layout.allowedItems
  · obtain ⟨sect, hi⟩ := (h.mem_iff item).mpr hallowed
    rw [(move_spec h hi target index).2.2]
    split
    · rw [filter_insertIdx (by simp), filter_erase (by simp)]
    · rw [filter_erase (by simp)]
  · rw [move_of_notMem hallowed]

theorem allowedItems_move (h : Placed layout) (item : α) (target : BarSection) (index : ℤ) :
    (layout.move item target index).2.allowedItems = layout.allowedItems := by
  by_cases hallowed : item ∈ layout.allowedItems
  · obtain ⟨sect, hi⟩ := (h.mem_iff item).mpr hallowed
    exact (move_spec h hi target index).2.1
  · rw [move_of_notMem hallowed]

/-! ### One place up, and down again -/

/-- A step up that succeeds is a move of an item that is not the first of its section. -/
theorem moveUp_eq_move (hup : (layout.moveUp item).1 = true) :
    ∃ sect i, item ∈ layout.getItems sect ∧ (layout.getItems sect).idxOf item = i + 1 ∧
      layout.moveUp item = layout.move item sect i := by
  have hindex : 0 < layout.getIndex item := by
    by_contra hle
    rw [BarLayout.moveUp, if_pos (by omega)] at hup
    exact absurd hup (by simp)
  have hi : item ∈ layout.getItems (layout.getSection item) := by
    by_contra hni
    have hget : layout.getIndex item = -1 := if_neg hni
    omega
  have hget : layout.getIndex item = (layout.getItems (layout.getSection item)).idxOf item :=
    indexOf_of_mem hi
  obtain ⟨i, hi'⟩ : ∃ i, (layout.getItems (layout.getSection item)).idxOf item = i + 1 :=
    ⟨_, (Nat.succ_pred_eq_of_pos (by omega)).symm⟩
  refine ⟨_, i, hi, hi', ?_⟩
  rw [BarLayout.moveUp, if_neg (by omega), hget, hi']
  simp

/-- An item that is not the last of its section moves down over its successor. -/
theorem moveDown_eq_move (h : Placed layout) (hi : item ∈ layout.getItems sect)
    (hlast : (layout.getItems sect).idxOf item + 1 < (layout.getItems sect).length) :
    layout.moveDown item = layout.move item sect ((layout.getItems sect).idxOf item + 2) := by
  have hindex : indexOf (layout.itemsFor sect) item = (layout.getItems sect).idxOf item :=
    indexOf_of_mem hi
  have hlength : (layout.itemsFor sect).length = (layout.getItems sect).length := rfl
  rw [BarLayout.moveDown, h.getSection_eq hi, hindex, if_neg (by omega)]

theorem moveDown_moveUp (h : Placed layout) (hup : (layout.moveUp item).1 = true) :
    ((layout.moveUp item).2.moveDown item).2 = layout := by
  obtain ⟨sect, i, hi, hidx, heq⟩ := moveUp_eq_move hup
  have hlt : i + 1 < (layout.getItems sect).length := hidx ▸ List.idxOf_lt_length_iff.mpr hi
  have herased := notMem_erase h item
  have hlength :
      ((layout.getItems sect).erase item).length + 1 = (layout.getItems sect).length := by
    rw [List.length_erase_of_mem hi]
    omega
  -- Up: the item lands before its predecessor.
  have hland : landing layout item sect i = i := by
    simp only [landing]
    rw [if_neg (by omega)]
    omega
  obtain ⟨-, hsame, hlists⟩ := move_spec h hi sect i
  have hplaced := placed_move h item sect i
  rw [hland] at hlists
  rw [heq]
  generalize (layout.move item sect i).2 = up at hsame hlists hplaced
  have hmem : item ∈ up.getItems sect := by
    rw [hlists, if_pos rfl]
    exact (List.mem_insertIdx (by omega)).mpr (.inl rfl)
  have herase : ∀ other, (up.getItems other).erase item = (layout.getItems other).erase item := by
    intro other
    rw [hlists]
    split
    · next ho => exact ho ▸ erase_insertIdx (herased sect) (by omega)
    · exact List.erase_of_not_mem (herased other)
  -- Down: the item lands behind it again.
  have hidx' : (up.getItems sect).idxOf item = i := by
    rw [hlists, if_pos rfl, idxOf_insertIdx (herased sect) (by omega)]
  have hlength' : (up.getItems sect).length = (layout.getItems sect).length := by
    rw [hlists, if_pos rfl, List.length_insertIdx_of_le_length (by omega)]
    omega
  have hland' : landing up item sect (i + 2) = i + 1 := by
    simp only [landing]
    rw [if_pos ⟨hmem, by omega⟩, herase]
    omega
  rw [moveDown_eq_move hplaced hmem (by omega), hidx']
  obtain ⟨-, hsame', hlists'⟩ := move_spec hplaced hmem sect (i + 2)
  refine BarLayout.eq_of_getItems (hsame'.trans hsame) fun other => ?_
  rw [hlists', hland', herase]
  split
  · next ho =>
    subst ho
    rw [← hidx, ← eraseIdx_idxOf]
    exact insertIdx_eraseIdx_idxOf hi
  · next ho => exact h.erase_eq ho hi

/-! ### Runs -/

/-- An edit is a move or nothing. -/
theorem edit_eq (layout : BarLayout α) (e : Edit α) : layout.edit e = layout ∨
    ∃ item target index, layout.edit e = (layout.move item target index).2 := by
  cases e with
  | move item target index => exact .inr ⟨item, target, index, rfl⟩
  | moveUp item =>
    rw [BarLayout.edit, BarLayout.moveUp]
    split
    · exact .inl rfl
    · exact .inr ⟨_, _, _, rfl⟩
  | moveDown item =>
    rw [BarLayout.edit, BarLayout.moveDown]
    split
    · exact .inl rfl
    · exact .inr ⟨_, _, _, rfl⟩

theorem placed_edit {allowedItems : List α}
    (h : Placed layout ∧ layout.allowedItems = allowedItems) (e : Edit α) :
    Placed (layout.edit e) ∧ (layout.edit e).allowedItems = allowedItems := by
  rcases edit_eq layout e with he | ⟨item, target, index, he⟩
  · exact he.symm ▸ h
  · rw [he]
    exact ⟨placed_move h.1 item target index, (allowedItems_move h.1 item target index).trans h.2⟩

end

/-- **The contract of a bar layout.** Every layout that is built from any lists and edited in any
way has every allowed item in one section, once, and nothing else. The saved items keep their
section and their order when it is built; a move reports whether it changed the layout and leaves
the order of all other items; a step down undoes a step up; and the lists saved from it build it
again. -/
theorem layout_contract (allowedItems defaultLeft defaultCenter defaultRight savedLeft savedCenter
    savedRight : List α) (edits : List (Edit α)) :
    let start := BarLayout.new allowedItems defaultLeft defaultCenter defaultRight savedLeft
      savedCenter savedRight
    let layout := run BarLayout.edit start edits
    KeepsSaved (bySection savedLeft savedCenter savedRight) start ∧
    Placed layout ∧ layout.allowedItems = allowedItems ∧
    (∀ item target index,
      (layout.move item target index).1 = true ↔ (layout.move item target index).2 ≠ layout) ∧
    (∀ item target index sect,
      ((layout.move item target index).2.getItems sect).filter (· ≠ item) =
        (layout.getItems sect).filter (· ≠ item)) ∧
    (∀ item, (layout.moveUp item).1 = true → ((layout.moveUp item).2.moveDown item).2 = layout) ∧
    ∀ defaultLeft' defaultCenter' defaultRight',
      BarLayout.new allowedItems defaultLeft' defaultCenter' defaultRight' (layout.getItems .left)
        (layout.getItems .center) (layout.getItems .right) = layout := by
  intro start layout
  obtain ⟨h, hallowed⟩ : Placed layout ∧ layout.allowedItems = allowedItems := by
    refine run_invariant (P := fun l => Placed l ∧ l.allowedItems = allowedItems)
      (fun _ e h => placed_edit h e) ⟨placed_new _ _ _ _ _ _ _, rfl⟩ edits
  refine ⟨keepsSaved_new _ _ _ _ _ _ _, h, hallowed, move_eq_true_iff h, filter_move h,
    fun item => moveDown_moveUp h, fun l c r => ?_⟩
  have hself := h.new_getItems l c r
  rwa [hallowed] at hself

/-- Items that are repeated, unknown or not saved. -/
example : BarLayout.new [0, 1, 2, 3] [0] [1] [2, 3] [0, 7, 0] [] [3] =
    { allowedItems := [0, 1, 2, 3], leftItems := [0], centerItems := [1],
      rightItems := [3, 2] } := by
  decide

end Bar

end SingularityShell
