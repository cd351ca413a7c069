import Mathlib.Data.List.Basic
import Mathlib.Tactic.TypeStar

/-!
# Runs of a total step function

A deterministic transition system is a step function `step : σ → ε → σ` that takes the current
state and one event. Everything below is about finite runs of such a system, and about runs in
which every step meets a side condition `ok`, evaluated in the state *before* the step.

## Main definitions

* `Transition.run` — the state after a list of events
* `Transition.Guarded` — every step of the run meets `ok`

## Main results

* `Transition.Guarded.invariant` — a property the guarded steps preserve holds after the run
* `Transition.guarded_iff_forall_prefix` — a side condition that tells exactly when it is kept
* `Transition.Guarded.iff_forall_prefix` — the same of the steps that a run may take
* `Transition.Guarded.map_iff` — a side condition on what a map keeps of the states
* `Transition.guarded_append` — a run is guarded exactly when its two halves are
-/

namespace SingularityShell

namespace Transition

variable {σ ε : Type*} {step : σ → ε → σ} {ok : σ → ε → Prop}

/-- The state after the events of a list, in order. -/
def run (step : σ → ε → σ) : σ → List ε → σ
  | s, [] => s
  | s, e :: es => run step (step s e) es

@[simp] theorem run_nil (s : σ) : run step s [] = s := rfl

@[simp] theorem run_cons (s : σ) (e : ε) (es : List ε) :
    run step s (e :: es) = run step (step s e) es := rfl

theorem run_append (s : σ) (es es' : List ε) :
    run step s (es ++ es') = run step (run step s es) es' := by
  induction es generalizing s with
  | nil => rfl
  | cons e es ih => exact ih (step s e)

/-- Every step of the run from `s` meets `ok`, judged in the state the step starts from. -/
def Guarded (step : σ → ε → σ) (ok : σ → ε → Prop) : σ → List ε → Prop
  | _, [] => True
  | s, e :: es => ok s e ∧ Guarded step ok (step s e) es

@[simp] theorem guarded_nil (s : σ) : Guarded step ok s [] := trivial

@[simp] theorem guarded_cons (s : σ) (e : ε) (es : List ε) :
    Guarded step ok s (e :: es) ↔ ok s e ∧ Guarded step ok (step s e) es := Iff.rfl

instance decidableGuarded [∀ s e, Decidable (ok s e)] :
    ∀ (s : σ) (es : List ε), Decidable (Guarded step ok s es)
  | _, [] => inferInstanceAs (Decidable True)
  | s, e :: es =>
    have := decidableGuarded (step s e) es
    inferInstanceAs (Decidable (ok s e ∧ Guarded step ok (step s e) es))

theorem guarded_append (s : σ) (es es' : List ε) :
    Guarded step ok s (es ++ es') ↔ Guarded step ok s es ∧ Guarded step ok (run step s es) es' := by
  induction es generalizing s with
  | nil => simp
  | cons e es ih => simp [ih, and_assoc]

theorem Guarded.mono {ok' : σ → ε → Prop} (h : ∀ s e, ok s e → ok' s e) {s : σ} {es : List ε}
    (hg : Guarded step ok s es) : Guarded step ok' s es := by
  induction es generalizing s with
  | nil => trivial
  | cons e es ih => exact ⟨h s e hg.1, ih hg.2⟩

theorem Guarded.and {ok' : σ → ε → Prop} {s : σ} {es : List ε} (h : Guarded step ok s es)
    (h' : Guarded step ok' s es) : Guarded step (fun s e => ok s e ∧ ok' s e) s es := by
  induction es generalizing s with
  | nil => trivial
  | cons e es ih => exact ⟨⟨h.1, h'.1⟩, ih h.2 h'.2⟩

/-- **The invariant rule.** What every guarded step preserves, every guarded run preserves. -/
theorem Guarded.invariant {P : σ → Prop} (hstep : ∀ s e, P s → ok s e → P (step s e)) {s : σ}
    {es : List ε} (h : P s) (hg : Guarded step ok s es) : P (run step s es) := by
  induction es generalizing s with
  | nil => exact h
  | cons e es ih => exact ih (hstep s e h hg.1) hg.2

/-- What every step preserves, every run preserves. -/
theorem run_invariant {P : σ → Prop} (hstep : ∀ s e, P s → P (step s e)) {s : σ} (h : P s)
    (es : List ε) : P (run step s es) := by
  induction es generalizing s with
  | nil => exact h
  | cons e es ih => exact ih (hstep s e h)

/-- **Exact side conditions.** Where a step from a state with `P` leads to a state with `P` exactly
when it meets `ok`, a run stays in the states with `P` exactly when all its steps do. -/
theorem guarded_iff_forall_prefix {I P : σ → Prop} (hinv : ∀ s e, I s → P s → I (step s e))
    (hstep : ∀ s e, I s → P s → (P (step s e) ↔ ok s e)) {s : σ} (hI : I s) (hP : P s)
    (es : List ε) : (∀ es', es' <+: es → P (run step s es')) ↔ Guarded step ok s es := by
  induction es generalizing s with
  | nil =>
    refine ⟨fun _ => trivial, fun _ es' h => ?_⟩
    rw [List.prefix_nil.mp h]
    exact hP
  | cons e es ih =>
    refine ⟨fun h => ?_, fun h es' hpre => ?_⟩
    · have hnext : P (step s e) := h [e] ⟨es, rfl⟩
      refine ⟨(hstep s e hI hP).mp hnext, (ih (hinv s e hI hP) hnext).mp fun es' hpre => ?_⟩
      exact h (e :: es') (List.cons_prefix_cons.mpr ⟨rfl, hpre⟩)
    · have hnext := (hstep s e hI hP).mpr h.1
      rcases List.prefix_cons_iff.mp hpre with rfl | ⟨es'', rfl, htail⟩
      · exact hP
      · exact (ih (hinv s e hI hP) hnext).mpr h.2 es'' htail

/-- Exact side conditions for the steps that a run may take. -/
theorem Guarded.iff_forall_prefix {may : σ → ε → Prop} {I P : σ → Prop}
    (hinv : ∀ s e, I s → may s e → I (step s e))
    (hstep : ∀ s e, I s → may s e → P s → (P (step s e) ↔ ok s e)) {s : σ} {es : List ε}
    (hmay : Guarded step may s es) (hI : I s) (hP : P s) :
    (∀ es', es' <+: es → P (run step s es')) ↔ Guarded step ok s es := by
  induction es generalizing s with
  | nil =>
    refine ⟨fun _ => trivial, fun _ es' h => ?_⟩
    rw [List.prefix_nil.mp h]
    exact hP
  | cons e es ih =>
    obtain ⟨hfirst, hrest⟩ := hmay
    have hnext := hinv s e hI hfirst
    refine ⟨fun h => ?_, fun h es' hpre => ?_⟩
    · have hgood : P (step s e) := h [e] ⟨es, rfl⟩
      refine ⟨(hstep s e hI hfirst hP).mp hgood, (ih hrest hnext hgood).mp fun es' hpre => ?_⟩
      exact h (e :: es') (List.cons_prefix_cons.mpr ⟨rfl, hpre⟩)
    · have hgood := (hstep s e hI hfirst hP).mpr h.1
      rcases List.prefix_cons_iff.mp hpre with rfl | ⟨es'', rfl, htail⟩
      · exact hP
      · exact (ih hrest hnext hgood).mpr h.2 es'' htail

/-- **Side conditions on an abstraction.** Where the steps that a run may take are steps of what `f`
keeps of its states, a side condition on that can be judged in a run of its own. -/
theorem Guarded.map_iff {σ' : Type*} {step' : σ' → ε → σ'} {ok' : σ' → ε → Prop}
    {may : σ → ε → Prop} {I : σ → Prop} (f : σ → σ')
    (hinv : ∀ s e, I s → may s e → I (step s e))
    (hstep : ∀ s e, I s → may s e → f (step s e) = step' (f s) e) {s : σ} {es : List ε}
    (hmay : Guarded step may s es) (hI : I s) :
    Guarded step (fun s e => ok' (f s) e) s es ↔ Guarded step' ok' (f s) es := by
  induction es generalizing s with
  | nil => exact Iff.rfl
  | cons e es ih =>
    rw [guarded_cons, guarded_cons, ← hstep s e hI hmay.1]
    exact and_congr_right fun _ => ih hmay.2 (hinv s e hI hmay.1)

end Transition

end SingularityShell
