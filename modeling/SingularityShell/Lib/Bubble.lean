import Mathlib.Data.List.Perm.Basic
import Mathlib.Order.Lattice

/-!
# Bubble sort

A list is sorted by a key, by passes that swap neighbours which stand the wrong way around. Each
pass goes one element less far than the one before. The result is sorted, and elements with the same
key stay in the order that they had.

## Main definitions

* `Bubble.pass` — a pass over the first elements
* `Bubble.sort` — the passes
* `Bubble.Sorts` — what the passes so far have made of the list

## Main results

* `Bubble.Sorts.pass` — the step lemma
* `Bubble.sort_perm`, `Bubble.sort_pairwise` — the sorted list
-/

namespace SingularityShell

namespace Bubble

variable {α β : Type*} [LinearOrder β]

/-- Compares the element at the front with the one after it, `k` times, and leaves the smaller one
behind. -/
def pass (key : α → β) : ℕ → List α → List α
  | k + 1, a :: b :: l =>
    if key b < key a then b :: pass key k (a :: l) else a :: pass key k (b :: l)
  | _, l => l

def sort (key : α → β) (l : List α) : List α :=
  (List.range (l.length - 1)).foldl (fun sorted i => pass key (l.length - 1 - i) sorted) l

variable {key : α → β} {r : α → α → Prop}

/-! ### A pass -/

@[simp] theorem pass_zero (l : List α) : pass key 0 l = l := by
  rw [pass]
  simp

theorem pass_cons_cons (k : ℕ) (a b : α) (l : List α) :
    pass key (k + 1) (a :: b :: l) =
      if key b < key a then b :: pass key k (a :: l) else a :: pass key k (b :: l) := by
  rw [pass]

theorem pass_perm (key : α → β) (k : ℕ) (l : List α) : (pass key k l).Perm l := by
  induction k, l using pass.induct key with
  | case1 k a b l h ih =>
    rw [pass_cons_cons, if_pos h]
    exact (ih.cons b).trans (List.Perm.swap a b l)
  | case2 k a b l h ih =>
    rw [pass_cons_cons, if_neg h]
    exact ih.cons a
  | case3 k l h =>
    rw [pass]
    exact h

/-- Elements with the same key are not swapped. -/
theorem pairwise_pass (k : ℕ) (l : List α) (h : l.Pairwise fun a b => key a = key b → r a b) :
    (pass key k l).Pairwise fun a b => key a = key b → r a b := by
  induction k, l using pass.induct key with
  | case1 k a b l hlt ih =>
    obtain ⟨ha, hb, hl⟩ : (∀ c ∈ b :: l, key a = key c → r a c) ∧
        (∀ c ∈ l, key b = key c → r b c) ∧ l.Pairwise fun a b => key a = key b → r a b := by
      simpa only [List.pairwise_cons] using h
    rw [pass_cons_cons, if_pos hlt, List.pairwise_cons]
    refine ⟨fun c hc heq => ?_, ih (hl.cons fun c hc => ha c (List.mem_cons_of_mem b hc))⟩
    rcases List.mem_cons.1 ((pass_perm key k _).mem_iff.1 hc) with rfl | hc
    · exact absurd heq hlt.ne
    · exact hb c hc heq
  | case2 k a b l hle ih =>
    obtain ⟨ha, hl⟩ := List.pairwise_cons.1 h
    rw [pass_cons_cons, if_neg hle, List.pairwise_cons]
    exact ⟨fun c hc => ha c ((pass_perm key k _).mem_iff.1 hc), ih hl⟩
  | case3 k l hl =>
    rw [pass]
    · exact h
    · exact hl

/-- A pass over `k + 1` elements moves a greatest one of them to their end. -/
theorem pass_append (key : α → β) (k : ℕ) (a : α) (front : List α) (hlength : front.length = k)
    (settled : List α) :
    ∃ rest m, pass key k (a :: front ++ settled) = rest ++ m :: settled ∧
      (rest ++ [m]).Perm (a :: front) ∧ ∀ b ∈ rest, key b ≤ key m := by
  induction k generalizing a front with
  | zero =>
    obtain rfl := List.length_eq_zero_iff.1 hlength
    exact ⟨[], a, by simp, List.Perm.refl _, by simp⟩
  | succ k ih =>
    obtain ⟨b, front, rfl⟩ := List.exists_cons_of_length_eq_add_one hlength
    have hlength : front.length = k := by simpa using hlength
    by_cases h : key b < key a
    · obtain ⟨rest, m, hpass, hperm, hle⟩ := ih a front hlength
      refine ⟨b :: rest, m, ?_, (hperm.cons b).trans (List.Perm.swap a b front), ?_⟩
      · rw [List.cons_append, List.cons_append, pass_cons_cons, if_pos h, ← List.cons_append, hpass,
          List.cons_append]
      · have ha : key a ≤ key m := by
          rcases List.mem_append.1 (hperm.mem_iff.2 List.mem_cons_self) with ha | ha
          · exact hle a ha
          · rw [List.mem_singleton.1 ha]
        rintro c (_ | ⟨_, hc⟩)
        · exact h.le.trans ha
        · exact hle c hc
    · obtain ⟨rest, m, hpass, hperm, hle⟩ := ih b front hlength
      refine ⟨a :: rest, m, ?_, hperm.cons a, ?_⟩
      · rw [List.cons_append, List.cons_append, pass_cons_cons, if_neg h, ← List.cons_append, hpass,
          List.cons_append]
      · have hb : key b ≤ key m := by
          rcases List.mem_append.1 (hperm.mem_iff.2 List.mem_cons_self) with hb | hb
          · exact hle b hb
          · rw [List.mem_singleton.1 hb]
        rintro c (_ | ⟨_, hc⟩)
        · exact (not_lt.1 h).trans hb
        · exact hle c hc

/-! ### The passes -/

/-- After `i` passes over the list, the last `i` elements are the greatest ones, and sorted. -/
structure Sorts (key : α → β) (r : α → α → Prop) (l : List α) (i : ℕ) (sorted : List α) : Prop where
  perm : sorted.Perm l
  stable : sorted.Pairwise fun a b => key a = key b → r a b
  settled : ∃ front settled, sorted = front ++ settled ∧ settled.length = i ∧
    settled.Pairwise (key · ≤ key ·) ∧ ∀ a ∈ front, ∀ b ∈ settled, key a ≤ key b

theorem Sorts.init {l : List α} (h : l.Pairwise r) : Sorts key r l 0 l where
  perm := List.Perm.refl l
  stable := h.imp (by
    intro a b hr _
    exact hr)
  settled := ⟨l, [], by simp⟩

theorem Sorts.pass {l sorted : List α} {i : ℕ} (h : Sorts key r l i sorted)
    (hi : i < l.length - 1) : Sorts key r l (i + 1) (pass key (l.length - 1 - i) sorted) := by
  obtain ⟨front, settled, rfl, hsettled, hpairwise, hle⟩ := h.settled
  have hlength : front.length = l.length - 1 - i + 1 := by
    have := h.perm.length_eq
    rw [List.length_append] at this
    omega
  obtain ⟨a, front, rfl⟩ := List.exists_cons_of_length_eq_add_one hlength
  obtain ⟨rest, m, hpass, hperm, hmax⟩ :=
    pass_append key _ a front (by simpa using hlength) settled
  refine ⟨(pass_perm key _ _).trans h.perm, pairwise_pass _ _ h.stable,
    rest, m :: settled, hpass, by simp [hsettled], ?_, ?_⟩
  · have hm : m ∈ a :: front := hperm.mem_iff.1 (by simp)
    exact hpairwise.cons (hle m hm)
  · intro b hb c hc
    have hb' : b ∈ a :: front := hperm.mem_iff.1 (List.mem_append_left _ hb)
    rcases List.mem_cons.1 hc with rfl | hc
    · exact hmax b hb
    · exact hle b hb' c hc

theorem Sorts.sort {l : List α} (h : l.Pairwise r) :
    Sorts key r l (l.length - 1) (sort key l) := by
  have hrun : ∀ n ≤ l.length - 1, Sorts key r l n ((List.range n).foldl
      (fun sorted i => Bubble.pass key (l.length - 1 - i) sorted) l) := by
    intro n
    induction n with
    | zero => exact fun _ => .init h
    | succ n ih =>
      intro hn
      rw [List.range_succ, List.foldl_append]
      exact (ih (by omega)).pass (by omega)
  exact hrun _ (Nat.le_refl _)

theorem sort_perm (key : α → β) (l : List α) : (sort key l).Perm l :=
  (Sorts.sort (r := fun _ _ => True) (List.pairwise_of_forall fun _ _ => trivial)).perm

/-- **The sorted list.** Its elements stand in the order of their keys, and in the order that they
had where the keys are the same. -/
theorem sort_pairwise {l : List α} (h : l.Pairwise r) :
    (sort key l).Pairwise fun a b => key a < key b ∨ key a = key b ∧ r a b := by
  have hsorts : Sorts key r l (l.length - 1) (sort key l) := .sort h
  obtain ⟨hperm, hstable, front, settled, heq, hsettled, hpairwise, hle⟩ := hsorts
  have hfront : front.length ≤ 1 := by
    have := hperm.length_eq
    rw [heq, List.length_append] at this
    omega
  have hsorted : (sort key l).Pairwise (key · ≤ key ·) := by
    rw [heq, List.pairwise_append]
    refine ⟨?_, hpairwise, hle⟩
    match front, hfront with
    | [], _ => exact List.Pairwise.nil
    | [a], _ => exact List.pairwise_singleton _ a
  exact hsorted.imp₂ (fun a b hab hr => hab.lt_or_eq.imp_right fun heq => ⟨heq, hr heq⟩) hstable

end Bubble

end SingularityShell
