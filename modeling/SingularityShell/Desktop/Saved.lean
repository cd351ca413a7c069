import SingularityShell.Desktop.Icons

/-!
# The saved positions

A recorded cell is a line with the name, a colon and two numbers. The line is split at the colon
when it is read, so that a name with a colon is not read again, and one with a line break is read as
two lines.

## Main definitions

* `DesktopIcons.Plain` — the names that are read again
* `DesktopIcons.IsCell` — the cells whose coordinates are an `int`

## Main results

* `DesktopIcons.lookup_loadPositions` — what is recorded after the positions were saved and loaded
-/

namespace SingularityShell

namespace DesktopIcons

open Ascii

/-- The name has no colon and no line break. -/
def Plain (name : Text) : Prop := 58 ∉ name ∧ 10 ∉ name

def IsInt (v : ℤ) : Prop := -2 ^ 31 ≤ v ∧ v < 2 ^ 31

def IsCell (c : Cell) : Prop := IsInt c.1 ∧ IsInt c.2

theorem notMem_signed {n : ℤ} {b : UInt8} (hminus : b ≠ 45) (hdigit : isDigit b = false) :
    b ∉ signed n := by
  intro hb
  rcases isDigit_of_mem_signed hb with h | h
  · exact hminus h
  · rw [hdigit] at h
    cases h

theorem notMem_position {c : Cell} {b : UInt8} (hcomma : b ≠ 44) (hminus : b ≠ 45)
    (hdigit : isDigit b = false) : b ∉ signed c.1 ++ 44 :: signed c.2 := by
  intro hb
  rcases List.mem_append.1 hb with hb | hb
  · exact notMem_signed hminus hdigit hb
  · rcases List.mem_cons.1 hb with hb | hb
    · exact hcomma hb
    · exact notMem_signed hminus hdigit hb

theorem newline_notMem_line {name : Text} (h : 10 ∉ name) (c : Cell) : 10 ∉ line name c := by
  intro hb
  rcases List.mem_append.1 hb with hb | hb
  · exact h hb
  · rcases List.mem_cons.1 hb with hb | hb
    · exact absurd hb (by decide)
    · exact notMem_position (by decide) (by decide) (by decide) hb

theorem parseLine_line {name : Text} (h : 58 ∉ name) {c : Cell} (hc : IsCell c) :
    parseLine (line name c) = some (name, c) := by
  have hcolon : (line name c).splitOn 58 = [name, signed c.1 ++ 44 :: signed c.2] := by
    rw [line, List.splitOn_append_cons_self_of_not_mem h, List.splitOn_eq_singleton
      (notMem_position (by decide) (by decide) (by decide))]
  have hcomma : (signed c.1 ++ 44 :: signed c.2).splitOn 44 = [signed c.1, signed c.2] := by
    rw [List.splitOn_append_cons_self_of_not_mem (notMem_signed (by decide) (by decide)),
      List.splitOn_eq_singleton (notMem_signed (by decide) (by decide))]
  rw [parseLine, hcolon]
  dsimp only
  rw [hcomma]
  dsimp only
  rw [Numeral.atoi_signed hc.1.1 hc.1.2, Numeral.atoi_signed hc.2.1 hc.2.2]

/-- The lines that are saved are read one after the other. -/
theorem loadLines_savePositions {positions : Table} {order : List Text}
    (hplain : ∀ name ∈ order, Plain name)
    (hcell : ∀ name c, positions.lookup name = some c → IsCell c) (t : Table) (name : Text) :
    (loadLines ((savePositions order positions).splitOn 10) t).lookup name =
      if name ∈ order ∧ (positions.lookup name).isSome then positions.lookup name
      else t.lookup name := by
  induction order generalizing t with
  | nil =>
    rw [if_neg (by simp)]
    rfl
  | cons first order ih =>
    have hrest := ih fun name hname => hplain name (List.mem_cons_of_mem first hname)
    have hfirst := hplain first List.mem_cons_self
    cases hlookup : positions.lookup first with
    | none =>
      have hsave : savePositions (first :: order) positions = savePositions order positions := by
        rw [savePositions, List.flatMap_cons, hlookup]
        rfl
      rw [hsave, hrest t]
      by_cases hname : name = first
      · subst hname
        rw [if_neg (by simp [hlookup]), if_neg (by simp [hlookup])]
      · simp only [List.mem_cons, hname, false_or]
    | some c =>
      have hsave : (savePositions (first :: order) positions).splitOn 10 =
          line first c :: (savePositions order positions).splitOn 10 := by
        rw [savePositions, List.flatMap_cons, hlookup]
        dsimp only
        rw [List.append_assoc, List.singleton_append,
          List.splitOn_append_cons_self_of_not_mem (newline_notMem_line hfirst.2 c)]
        rfl
      have hload : loadLines ((savePositions (first :: order) positions).splitOn 10) t =
          loadLines ((savePositions order positions).splitOn 10) (t.insert first c) := by
        rw [hsave, loadLines, List.foldl_cons, parseLine_line hfirst.1 (hcell first c hlookup)]
        rfl
      rw [hload, hrest]
      by_cases hname : name = first
      · rw [hname, hlookup, AList.lookup_insert]
        simp
      · rw [AList.lookup_insert_ne hname]
        simp only [List.mem_cons, hname, false_or]

/-- **What is read of the saved positions.** If the names are plain, every recorded cell is recorded
again, and nothing else. -/
theorem lookup_loadPositions {positions : Table} {order : List Text}
    (hkeys : ∀ name, name ∈ order ↔ name ∈ positions) (hplain : ∀ name ∈ positions, Plain name)
    (hcell : ∀ name c, positions.lookup name = some c → IsCell c) (name : Text) :
    (loadPositions (savePositions order positions)).lookup name = positions.lookup name := by
  have hload := loadLines_savePositions (fun name hname => hplain name ((hkeys name).1 hname))
    hcell ∅ name
  rw [loadPositions]
  refine hload.trans ?_
  split_ifs with hname
  · rfl
  · rw [AList.lookup_empty]
    cases hlookup : positions.lookup name with
    | none => rfl
    | some c =>
      have hmem : name ∈ positions := AList.lookup_isSome.1 (by rw [hlookup]; rfl)
      exact absurd ⟨(hkeys name).2 hmem, by rw [hlookup]; rfl⟩ hname

end DesktopIcons

end SingularityShell
