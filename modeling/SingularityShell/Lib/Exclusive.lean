import Mathlib.Logic.Function.Basic
import Mathlib.Tactic.TypeStar

/-!
# Slots with one holder

A set of slots, some of which are in use, and holders that have at most one slot each. The two fit
when the slots in use are those that some holder has, and no two holders have the same.

## Main definitions

* `Exclusive` — the slots in use are those that exactly one holder has

## Main results

* `Exclusive.attach`, `Exclusive.detach` — a holder takes a slot that is not in use, and gives it
  back -/

namespace SingularityShell

/-- The slots in use are those that some holder has, and no two holders have the same. -/
structure Exclusive {ι κ : Type*} (used : ι → Prop) (slot : κ → Option ι) : Prop where
  used_iff : ∀ i, used i ↔ ∃ a, slot a = some i
  unique : ∀ a b i, slot a = some i → slot b = some i → a = b

namespace Exclusive

variable {ι κ : Type*} {used used' : ι → Prop} {slot slot' : κ → Option ι} {a : κ} {i : ι}

theorem congr (h : Exclusive used slot) (hused : ∀ i, used' i ↔ used i) (hslot : slot' = slot) :
    Exclusive used' slot' := by
  subst hslot
  exact ⟨fun i => (hused i).trans (h.used_iff i), h.unique⟩

variable [DecidableEq κ]

theorem attach (h : Exclusive used slot) (ha : slot a = none) (hi : ¬used i)
    (hused : ∀ j, used' j ↔ j = i ∨ used j) :
    Exclusive used' (Function.update slot a (some i)) := by
  have hfree (b : κ) : slot b ≠ some i := fun hb => hi ((h.used_iff i).mpr ⟨b, hb⟩)
  refine ⟨fun j => (hused j).trans ?_, fun b c j hb hc => ?_⟩
  · constructor
    · rintro (rfl | hj)
      · exact ⟨a, Function.update_self _ _ _⟩
      · obtain ⟨b, hb⟩ := (h.used_iff j).mp hj
        refine ⟨b, ?_⟩
        rw [Function.update_of_ne, hb]
        rintro rfl
        rw [ha] at hb
        cases hb
    · rintro ⟨b, hb⟩
      by_cases hba : b = a
      · rw [hba, Function.update_self] at hb
        exact Or.inl (Option.some.inj hb).symm
      · rw [Function.update_of_ne hba] at hb
        exact Or.inr ((h.used_iff j).mpr ⟨b, hb⟩)
  · by_cases hba : b = a <;> by_cases hca : c = a
    · rw [hba, hca]
    · rw [hba, Function.update_self] at hb
      rw [Function.update_of_ne hca, ← hb] at hc
      exact absurd hc (hfree c)
    · rw [hca, Function.update_self] at hc
      rw [Function.update_of_ne hba, ← hc] at hb
      exact absurd hb (hfree b)
    · rw [Function.update_of_ne hba] at hb
      rw [Function.update_of_ne hca] at hc
      exact h.unique b c j hb hc

theorem detach (h : Exclusive used slot) (ha : slot a = some i)
    (hused : ∀ j, used' j ↔ j ≠ i ∧ used j) : Exclusive used' (Function.update slot a none) := by
  have hne {b : κ} {j : ι} (hb : Function.update slot a none b = some j) :
      b ≠ a ∧ slot b = some j := by
    by_cases hba : b = a
    · rw [hba, Function.update_self] at hb
      cases hb
    · rw [Function.update_of_ne hba] at hb
      exact ⟨hba, hb⟩
  refine ⟨fun j => (hused j).trans ?_, fun b c j hb hc => h.unique b c j (hne hb).2 (hne hc).2⟩
  constructor
  · rintro ⟨hj, hu⟩
    obtain ⟨b, hb⟩ := (h.used_iff j).mp hu
    refine ⟨b, ?_⟩
    rw [Function.update_of_ne, hb]
    rintro rfl
    rw [ha] at hb
    exact hj (Option.some.inj hb).symm
  · rintro ⟨b, hb⟩
    obtain ⟨hba, hb⟩ := hne hb
    refine ⟨?_, (h.used_iff j).mpr ⟨b, hb⟩⟩
    rintro rfl
    exact hba (h.unique b a j hb ha)

end Exclusive

end SingularityShell
