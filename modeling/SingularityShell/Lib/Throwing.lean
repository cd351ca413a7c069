import Mathlib.Tactic.TypeStar

/-!
# Computations that may throw

What is known of a computation that returns.

## Main definitions

* `Throwing.throwIf` — a check that throws

## Main results

* `Throwing.ok_of_bind` — the computation before the last one has returned as well
* `Throwing.bind_of_ok` — what is left after a computation that returns
-/

namespace SingularityShell

namespace Throwing

variable {ε α β : Type} {x : Except ε α} {f : α → Except ε β}

/-- A value that comes after another. -/
theorem ok_of_bind {b : β} (h : (x >>= f) = .ok b) : ∃ a, x = .ok a ∧ f a = .ok b := by
  cases x with
  | error => cases h
  | ok a => exact ⟨a, rfl, h⟩

theorem bind_of_ok {a : α} (h : x = .ok a) : (x >>= f) = f a := by
  rw [h]
  rfl

/-- Throws where something holds. -/
def throwIf (p : Prop) [Decidable p] (message : ε) : Except ε Unit :=
  if p then .error message else .ok ()

theorem not_of_throwIf {p : Prop} [Decidable p] {message : ε} {u : Unit}
    (h : throwIf p message = .ok u) : ¬p := by
  intro hp
  rw [throwIf, if_pos hp] at h
  cases h

end Throwing

end SingularityShell
