import Mathlib.Data.Finset.Basic
import Mathlib.Data.Finset.Lattice.Lemmas
import SingularityShell.Lib.Lists
import SingularityShell.Lib.Transition

/-!
# The layout of a bar

The items of a panel or a dock stand in three sections. A layout is built from the lists the user
has saved and from the default lists, and edited by moving one item at a time.

## Main definitions

* `Bar.BarLayout`, `Bar.BarLayout.new` — the three lists, and their construction
* `Bar.BarLayout.move`, `moveUp`, `moveDown` — the edits
* `Bar.Edit`, `Bar.BarLayout.edit` — one call of any of them

## Main results

* `Bar.exists_parts` — every list of a new layout is a part of its saved list and another one
-/

namespace SingularityShell

namespace Bar

open SingularityShell.Lists

variable {α : Type*} [DecidableEq α]

inductive BarSection where
  | left
  | center
  | right
  deriving DecidableEq

/-- The sections whose lists the constructor reads before that of `sect`. -/
def BarSection.before : BarSection → List BarSection
  | .left => []
  | .center => [.left]
  | .right => [.left, .center]

structure BarLayout (α : Type*) where
  allowedItems : List α
  leftItems : List α := []
  centerItems : List α := []
  rightItems : List α := []
  deriving DecidableEq

/-! ### Construction -/

/-- A loop over `source` that adds to `target` what meets `p` and was not seen. -/
def appendItems (p : α → Bool) (target : List α) : List α → Finset α → List α × Finset α
  | [], seen => (target, seen)
  | item :: source, seen =>
    if p item ∧ item ∉ seen then appendItems p (target ++ [item]) source (insert item seen)
    else appendItems p target source seen

/-- `append_valid` -/
def appendValid (target source : List α) (allowed seen : Finset α) : List α × Finset α :=
  appendItems (· ∈ allowed) target source seen

/-- `append_missing` -/
def appendMissing (target defaults : List α) (allowed seen : Finset α) : List α × Finset α :=
  appendItems (· ∈ allowed) target defaults seen

/-- The constructor. The lists of items and the set of what was seen pass through the seven loops.
-/
def BarLayout.new (allowedItems defaultLeft defaultCenter defaultRight savedLeft savedCenter
    savedRight : List α) : BarLayout α :=
  let allowed := allowedItems.toFinset
  let (leftItems, seen) := appendValid [] savedLeft allowed ∅
  let (centerItems, seen) := appendValid [] savedCenter allowed seen
  let (rightItems, seen) := appendValid [] savedRight allowed seen
  let (leftItems, seen) := appendMissing leftItems defaultLeft allowed seen
  let (centerItems, seen) := appendMissing centerItems defaultCenter allowed seen
  let (rightItems, seen) := appendMissing rightItems defaultRight allowed seen
  let (centerItems, _) := appendItems (fun _ => true) centerItems allowedItems seen
  { allowedItems, leftItems, centerItems, rightItems }

/-! ### Reading -/

namespace BarLayout

variable (layout : BarLayout α) (item : α)

def itemsFor : BarSection → List α
  | .left => layout.leftItems
  | .center => layout.centerItems
  | .right => layout.rightItems

/-- The list of a section, replaced by `items`. -/
def setItems : BarSection → List α → BarLayout α
  | .left, items => { layout with leftItems := items }
  | .center, items => { layout with centerItems := items }
  | .right, items => { layout with rightItems := items }

def items : List α := layout.leftItems ++ layout.centerItems ++ layout.rightItems

def getItems (sect : BarSection) : List α := layout.itemsFor sect

def getSection : BarSection :=
  if item ∈ layout.leftItems then .left
  else if item ∈ layout.rightItems then .right
  else .center

end BarLayout

/-- `index_of` of a list, which is `-1` for what the list does not hold. -/
def indexOf (items : List α) (item : α) : ℤ := if item ∈ items then items.idxOf item else -1

namespace BarLayout

variable (layout : BarLayout α) (item : α)

def getIndex : ℤ := indexOf (layout.itemsFor (layout.getSection item)) item

/-! ### Edits -/

/-- `move`: the value returned, and the layout after the call. The two sections can be one list, and
the target is read after the removal. -/
def move (targetSection : BarSection) (targetIndex : ℤ) : Bool × BarLayout α :=
  if item ∉ layout.allowedItems then (false, layout)
  else
    let sourceSection := layout.getSection item
    let source := layout.itemsFor sourceSection
    let sourceIndex := indexOf source item
    if sourceIndex < 0 then (false, layout)
    else
      let removed := layout.setItems sourceSection (source.eraseIdx sourceIndex.toNat)
      let target := removed.itemsFor targetSection
      let targetIndex :=
        if sourceSection = targetSection ∧ targetIndex > sourceIndex then targetIndex - 1
        else targetIndex
      let targetIndex := max 0 (min targetIndex target.length)
      (sourceSection ≠ targetSection ∨ sourceIndex ≠ targetIndex,
        removed.setItems targetSection (target.insertIdx targetIndex.toNat item))

def moveUp : Bool × BarLayout α :=
  let index := layout.getIndex item
  if index ≤ 0 then (false, layout)
  else layout.move item (layout.getSection item) (index - 1)

def moveDown : Bool × BarLayout α :=
  let items := layout.itemsFor (layout.getSection item)
  let index := indexOf items item
  if index < 0 ∨ index ≥ items.length - 1 then (false, layout)
  else layout.move item (layout.getSection item) (index + 2)

end BarLayout

/-- A call of the program that can change the layout. -/
inductive Edit (α : Type*) where
  | move (item : α) (targetSection : BarSection) (targetIndex : ℤ)
  | moveUp (item : α)
  | moveDown (item : α)
  deriving DecidableEq

def BarLayout.edit (layout : BarLayout α) : Edit α → BarLayout α
  | .move item targetSection targetIndex => (layout.move item targetSection targetIndex).2
  | .moveUp item => (layout.moveUp item).2
  | .moveDown item => (layout.moveDown item).2

/-! ### The lists of a new layout -/

theorem appendItems_eq (p : α → Bool) (target source : List α) (seen : Finset α) :
    appendItems p target source seen =
      (target ++ unseen p source seen, seen ∪ (unseen p source seen).toFinset) := by
  induction source generalizing target seen with
  | nil => simp [appendItems, unseen]
  | cons item source ih =>
    rw [appendItems, unseen]
    split
    · rw [ih]
      simp [Finset.union_insert, Finset.insert_union]
    · exact ih _ _

/-- What the sections of a new layout hold: the parts from the saved lists and all others, with no
item twice and exactly the allowed ones in them. -/
structure Parts (allowedItems : List α) (saved : BarSection → List α) (layout : BarLayout α)
    (savedPart otherPart : BarSection → List α) : Prop where
  allowedItems_eq : layout.allowedItems = allowedItems
  getItems_eq : ∀ sect, layout.getItems sect = savedPart sect ++ otherPart sect
  savedPart_eq : ∀ sect, ∃ seen : Finset α,
    savedPart sect = unseen (· ∈ allowedItems.toFinset) (saved sect) seen ∧
      ∀ item ∈ seen, ∃ other ∈ sect.before, item ∈ savedPart other
  nodup : layout.items.Nodup
  mem_items : ∀ item, item ∈ layout.items ↔ item ∈ allowedItems

theorem nodup_append_unseen {p : α → Bool} {seen : List α} (h : seen.Nodup) (source : List α) :
    (seen ++ unseen p source seen.toFinset).Nodup := by
  refine h.append nodup_unseen fun item hs hu => ?_
  exact (mem_unseen.mp hu).2.2 (by simpa using hs)

/-- Three lists as a function of the section. -/
def bySection (left center right : List α) : BarSection → List α
  | .left => left
  | .center => center
  | .right => right

theorem exists_parts (allowedItems defaultLeft defaultCenter defaultRight savedLeft savedCenter
    savedRight : List α) : ∃ savedPart otherPart,
      Parts allowedItems (bySection savedLeft savedCenter savedRight)
        (.new allowedItems defaultLeft defaultCenter defaultRight savedLeft savedCenter savedRight)
        savedPart otherPart := by
  let p : α → Bool := fun item => item ∈ allowedItems.toFinset
  let sl := unseen p savedLeft ∅
  let sc := unseen p savedCenter sl.toFinset
  let sr := unseen p savedRight (sl ++ sc).toFinset
  let ml := unseen p defaultLeft (sl ++ sc ++ sr).toFinset
  let mc := unseen p defaultCenter (sl ++ sc ++ sr ++ ml).toFinset
  let mr := unseen p defaultRight (sl ++ sc ++ sr ++ ml ++ mc).toFinset
  let rest := unseen (fun _ => true) allowedItems (sl ++ sc ++ sr ++ ml ++ mc ++ mr).toFinset
  have hnew : BarLayout.new allowedItems defaultLeft defaultCenter defaultRight savedLeft
      savedCenter savedRight = ⟨allowedItems, sl ++ ml, sc ++ mc ++ rest, sr ++ mr⟩ := by
    simp only [BarLayout.new, appendValid, appendMissing, appendItems_eq, List.nil_append,
      Finset.empty_union, List.toFinset_append, sl, sc, sr, ml, mc, mr, rest, p]
  -- The parts in the order of the loops: each loop adds what no loop before it has added.
  have hperm : ((sl ++ ml) ++ (sc ++ mc ++ rest) ++ (sr ++ mr)).Perm
      (sl ++ sc ++ sr ++ ml ++ mc ++ mr ++ rest) := by
    refine List.perm_iff_count.mpr fun item => ?_
    simp only [List.count_append]
    omega
  have hnodup : (sl ++ sc ++ sr ++ ml ++ mc ++ mr ++ rest).Nodup := by
    have hsl : sl.Nodup := nodup_unseen
    repeat' apply nodup_append_unseen
    exact hsl
  have hallowed : ∀ item ∈ sl ++ sc ++ sr ++ ml ++ mc ++ mr, item ∈ allowedItems := by
    intro item hitem
    have hp : p item := by
      simp only [List.mem_append] at hitem
      rcases hitem with ((((h | h) | h) | h) | h) | h <;> exact (mem_unseen.mp h).2.1
    simpa [p] using hp
  refine ⟨bySection sl sc sr, bySection ml (mc ++ rest) mr, by rw [hnew], ?_, ?_, ?_, ?_⟩
  · rw [hnew]
    rintro (_ | _ | _) <;> simp [BarLayout.getItems, BarLayout.itemsFor, bySection]
  · rintro (_ | _ | _)
    · exact ⟨∅, rfl, by simp⟩
    · refine ⟨sl.toFinset, rfl, fun item hitem => ⟨.left, by simp [BarSection.before], ?_⟩⟩
      exact List.mem_toFinset.mp hitem
    · refine ⟨(sl ++ sc).toFinset, rfl, fun item hitem => ?_⟩
      rcases List.mem_append.mp (List.mem_toFinset.mp hitem) with h | h
      · exact ⟨.left, by simp [BarSection.before], h⟩
      · exact ⟨.center, by simp [BarSection.before], h⟩
  · rw [hnew]
    exact hperm.nodup_iff.mpr hnodup
  · intro item
    rw [hnew]
    refine hperm.mem_iff.trans ⟨fun h => ?_, fun h => ?_⟩
    · rcases List.mem_append.mp h with h | h
      · exact hallowed item h
      · exact (mem_unseen.mp h).1
    · refine List.mem_append.mpr ?_
      by_cases hs : item ∈ sl ++ sc ++ sr ++ ml ++ mc ++ mr
      · exact .inl hs
      · exact .inr (mem_unseen.mpr ⟨h, rfl, by simpa using hs⟩)

end Bar

end SingularityShell
