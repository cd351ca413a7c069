import Mathlib.Data.List.Basic
import Mathlib.Tactic.TypeStar

/-!
# A list with a cursor

A list of entries, of which one is current. A new entry takes the place of those after the current
one, and the oldest ones are given up where there would be too many. The same as two stacks with an
entry between them.

## Main definitions

* `Tape` — the entries and the cursor
* `Tape.record`, `Tape.goBack`, `Tape.goForward` — the operations
* `Tape.ofStacks` — the tape of two stacks

## Main results

* `Tape.record_ofStacks`, `Tape.goBack_ofStacks`, `Tape.goForward_ofStacks` — the operations on
  stacks
-/

namespace SingularityShell

structure Tape (α : Type*) where
  entries : List α := []
  cursor : ℕ := 0
  deriving DecidableEq

namespace Tape

variable {α : Type*} (t : Tape α)

def current : Option α := t.entries[t.cursor]?

/-- The entries before the current one, the oldest first. -/
def before : List α := t.entries.take t.cursor

/-- The entries after the current one, the next first. -/
def after : List α := t.entries.drop (t.cursor + 1)

/-- A new entry, of which no more than `limit` are kept. -/
def record (limit : ℕ) (a : α) : Tape α :=
  let entries := t.entries.take (t.cursor + 1) ++ [a]
  let kept := entries.drop (entries.length - limit)
  ⟨kept, kept.length - 1⟩

def goBack : Tape α := if 0 < t.cursor then { t with cursor := t.cursor - 1 } else t

def goForward : Tape α :=
  if t.cursor + 1 < t.entries.length then { t with cursor := t.cursor + 1 } else t

/-! ### Stacks -/

/-- The tape of two stacks, the top of each being next to the entry between them. -/
def ofStacks (back forward : List α) (current : Option α) : Tape α :=
  ⟨back ++ current.toList ++ forward.reverse, back.length⟩

variable {back forward : List α} {a b : α} {limit : ℕ}

@[simp] theorem before_ofStacks (current : Option α) :
    (ofStacks back forward current).before = back := by
  rw [before, ofStacks, List.append_assoc]
  exact List.take_left

@[simp] theorem current_ofStacks : (ofStacks back forward (some a)).current = some a := by
  simp [current, ofStacks]

@[simp] theorem after_ofStacks : (ofStacks back forward (some a)).after = forward.reverse := by
  rw [after, ofStacks]
  exact List.drop_left' (by simp)

/-- The entries that stay when a new one comes. -/
theorem take_ofStacks (current : Option α) (h : current = none → forward = []) :
    (ofStacks back forward current).entries.take (back.length + 1) = back ++ current.toList := by
  rw [ofStacks]
  cases current with
  | none =>
    rw [h rfl]
    simp [List.take_of_length_le (Nat.le_succ back.length)]
  | some c => exact List.take_left' (by simp)

theorem record_ofStacks (current : Option α) (h : current = none → forward = [])
    (hlimit : 1 ≤ limit) : (ofStacks back forward current).record limit a =
      ofStacks ((back ++ current.toList).drop ((back ++ current.toList).length + 1 - limit)) []
        (some a) := by
  have hcursor : (ofStacks back forward current).cursor = back.length := rfl
  obtain ⟨old, hold⟩ : ∃ old, old = back ++ current.toList := ⟨_, rfl⟩
  rw [record, hcursor, take_ofStacks current h, ← hold, List.length_append, List.length_singleton]
  have hdrop : (old ++ [a]).drop (old.length + 1 - limit) =
      old.drop (old.length + 1 - limit) ++ [a] :=
    List.drop_append_of_le_length (by omega)
  rw [hdrop, ofStacks]
  simp

theorem goBack_ofStacks : (ofStacks (back ++ [b]) forward (some a)).goBack =
    ofStacks back (forward ++ [a]) (some b) := by
  rw [goBack, if_pos (by simp [ofStacks]), ofStacks, ofStacks]
  simp

theorem goBack_ofStacks_nil (current : Option α) :
    (ofStacks [] forward current).goBack = ofStacks [] forward current :=
  if_neg (Nat.lt_irrefl 0)

theorem goForward_ofStacks : (ofStacks back (forward ++ [b]) (some a)).goForward =
    ofStacks (back ++ [a]) forward (some b) := by
  rw [goForward, if_pos (by simp [ofStacks]), ofStacks, ofStacks]
  simp

theorem goForward_ofStacks_nil (current : Option α) :
    (ofStacks back [] current).goForward = ofStacks back [] current := by
  refine if_neg ?_
  cases current <;> simp [ofStacks]

end Tape

end SingularityShell
