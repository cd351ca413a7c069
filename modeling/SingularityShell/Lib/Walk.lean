import Mathlib.Data.List.Cycle

/-!
# Walks

A list whose elements lead from one place to the next, and what holds between its neighbours when it
comes back to where it started.

## Main definitions

* `Walk.Leads` — the elements of a list lead from `p` to `q`

## Main results

* `Walk.Leads.append`, `Walk.Leads.links` — one walk after the other
* `Walk.Leads.chain` — in a closed walk each element is followed by one that starts where it ends
-/

namespace SingularityShell

namespace Walk

variable {π α : Type*} {step : π → α → π → Prop} {p q r : π} {l l' : List α}

/-- The elements of the list lead from `p` to `q`, one `step` each. -/
def Leads (step : π → α → π → Prop) : π → List α → π → Prop
  | p, [], q => p = q
  | p, a :: l, q => ∃ m, step p a m ∧ Leads step m l q

theorem Leads.append (h : Leads step p l q) (h' : Leads step q l' r) :
    Leads step p (l ++ l') r := by
  induction l generalizing p with
  | nil =>
    obtain rfl : p = q := h
    exact h'
  | cons a l ih =>
    obtain ⟨m, hm, hrest⟩ := h
    exact ⟨m, hm, ih hrest⟩

/-- Pieces that lead from each item to the next lead from the first item to the last. -/
theorem Leads.links {β : Type*} {node : β → π} {piece : β → β → List α} {x e : β} {items : List β}
    (h : ∀ p ∈ (x :: items).zip (items ++ [e]), Leads step (node p.1) (piece p.1 p.2) (node p.2)) :
    Leads step (node x) (((x :: items).zip (items ++ [e])).flatMap fun p => piece p.1 p.2)
      (node e) := by
  induction items generalizing x with
  | nil => simpa using h (x, e) (by simp)
  | cons y items ih =>
    rw [List.cons_append, List.zip_cons_cons] at h ⊢
    rw [List.flatMap_cons]
    exact (h (x, y) List.mem_cons_self).append (ih fun p hp => h p (List.mem_cons_of_mem _ hp))

/-- Two elements of which the second starts where the first ends. -/
def Meets (step : π → α → π → Prop) (a b : α) : Prop := ∃ p m q, step p a m ∧ step m b q

theorem Leads.isChain {a : α} (h : Leads step p (a :: l) q) :
    List.IsChain (Meets step) (a :: l) := by
  induction l generalizing a p with
  | nil => exact List.isChain_singleton a
  | cons b l ih =>
    obtain ⟨m, ha, hb⟩ := h
    obtain ⟨m', hb', -⟩ := id hb
    exact List.isChain_cons_cons.mpr ⟨⟨p, m, m', ha, hb'⟩, ih hb⟩

/-- In a closed walk each element is followed by one that starts where it ends. -/
theorem Leads.chain (h : Leads step p l p) : Cycle.Chain (Meets step) (l : Cycle α) := by
  cases l with
  | nil => exact Cycle.Chain.nil _
  | cons a l =>
    obtain ⟨m, ha, -⟩ := id h
    have hclosed : Leads step p ((a :: l) ++ [a]) m := h.append ⟨m, ha, rfl⟩
    exact hclosed.isChain

end Walk

end SingularityShell
