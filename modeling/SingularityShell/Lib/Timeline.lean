import Mathlib.Order.Lattice
import Mathlib.Order.MinMax

/-!
# Timelines

A value changes in the course of time. Its changes are kept in a list, the latest first, each with
the time at which it happened.

## Main definitions

* `Timeline.valueAt` — the value at a time
* `Timeline.since` — from when on the value was a given one
* `Timeline.Until` — the changes are in order

## Main results

* `Timeline.valueAt_eq_iff_since` — a value is kept over an interval exactly when it has been there
  since the start of it
-/

namespace SingularityShell

namespace Timeline

variable {τ α : Type*} [LinearOrder τ]

/-- The value at a time: that of the latest change before it. -/
def valueAt : List (τ × α) → τ → Option α
  | [], _ => none
  | (t, a) :: changes, u => if t ≤ u then some a else valueAt changes u

/-- The changes are in order, and none is later than `now`. -/
def Until (now : τ) : List (τ × α) → Prop
  | [] => True
  | (t, _) :: changes => t ≤ now ∧ Until t changes

theorem Until.mono {now now' : τ} {changes : List (τ × α)} (h : Until now changes)
    (hle : now ≤ now') : Until now' changes := by
  cases changes with
  | nil => trivial
  | cons change changes => exact ⟨h.1.trans hle, h.2⟩

/-- A change is not seen before it happens. -/
theorem valueAt_cons_of_lt {t u : τ} (h : u < t) (a : α) (changes : List (τ × α)) :
    valueAt ((t, a) :: changes) u = valueAt changes u := if_neg h.not_ge

variable [DecidableEq α]

/-- The time from which on the value is `a`, up to `now`. A value that was there for no time at all
is passed over. -/
def since (a : α) (now : τ) : List (τ × α) → τ
  | [] => now
  | (t, b) :: changes => if b = a ∨ t = now then since a t changes else now

/-- **Values over an interval.** -/
theorem valueAt_eq_iff_since {a : α} {start now : τ} {changes : List (τ × α)}
    (h : Until now changes) : (∀ u, start ≤ u → u < now → valueAt changes u = some a) ↔
      since a now changes ≤ start := by
  induction changes generalizing now with
  | nil =>
    constructor
    · intro hall
      by_contra hbad
      exact Option.some_ne_none a (hall start le_rfl (not_le.mp hbad)).symm
    · exact fun hle u hstart hnow => absurd (hle.trans hstart) hnow.not_ge
  | cons change changes ih =>
    obtain ⟨t, b⟩ := change
    obtain ⟨hnow, hrest⟩ := h
    -- before the change the values are those of the rest
    have hbefore : (∀ u, start ≤ u → u < t → valueAt ((t, b) :: changes) u = some a) ↔
        since a t changes ≤ start := by
      rw [← ih hrest]
      refine forall_congr' fun u => forall_congr' fun _ => forall_congr' fun hu => ?_
      rw [valueAt_cons_of_lt hu]
    by_cases hsame : b = a ∨ t = now
    · rw [since, if_pos hsame, ← hbefore]
      constructor
      · exact fun hall u hstart hu => hall u hstart (hu.trans_le hnow)
      · intro hall u hstart hu
        rcases lt_or_ge u t with hlt | hge
        · exact hall u hstart hlt
        · rcases hsame with rfl | rfl
          · exact if_pos hge
          · exact absurd hge hu.not_ge
    · obtain ⟨hother, hlater⟩ := not_or.mp hsame
      rw [since, if_neg hsame]
      constructor
      · intro hall
        by_contra hbad
        have hvalue := hall (max start t) (le_max_left _ _)
          (max_lt (not_le.mp hbad) (hnow.lt_of_ne hlater))
        rw [valueAt, if_pos (le_max_right _ _)] at hvalue
        exact hother (Option.some_inj.mp hvalue)
      · exact fun hle u hstart hu => absurd (hle.trans hstart) hu.not_ge

end Timeline

end SingularityShell
