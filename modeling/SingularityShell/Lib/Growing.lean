import Mathlib.Data.List.Nodup
import Mathlib.Data.List.Perm.Subperm
import Mathlib.Logic.Relation

/-!
# Walking a list that grows

A loop goes over a list and appends the children of each element to the list it goes over. When the
elements have disjoint children and the first has no parent, the loop ends and has then seen the
descendants of the first element, each once.

## Main definitions

* `Growing.loop` — the loop, with what is left of a number of rounds
* `Growing.Forest` — the children of different elements are different, and the root is none

## Main results

* `Growing.Forest.loop_spec` — the loop ends, and what it has gone over
-/

namespace SingularityShell

namespace Growing

variable {α : Type*}

/-- Goes over the elements from position `i` on, and appends the children of each. -/
def loop (children : α → List α) : ℕ → ℕ → List α → Option (List α)
  | 0, _, _ => none
  | rounds + 1, i, list =>
    match list[i]? with
    | none => some list
    | some a => loop children rounds (i + 1) (list ++ children a)

/-- The children of different elements are different, and the root is none of them. -/
structure Forest (children : α → List α) (root : α) : Prop where
  nodup : ∀ a, (children a).Nodup
  apart : ∀ a b c, c ∈ children a → c ∈ children b → a = b
  root : ∀ a, root ∉ children a

variable {children : α → List α} {root : α}

/-- What holds before each round: the list is the root and the children of those gone over. -/
structure Walked (children : α → List α) (root : α) (i : ℕ) (list : List α) : Prop where
  eq : list = root :: (list.take i).flatMap children
  nodup : list.Nodup
  reached : ∀ b ∈ list, Relation.ReflTransGen (fun a b => b ∈ children a) root b

theorem walked_init : Walked children root 0 [root] where
  eq := rfl
  nodup := List.pairwise_singleton _ _
  reached _ hb := List.mem_singleton.mp hb ▸ .refl

/-- **One round.** -/
theorem Walked.step (hforest : Forest children root) {i : ℕ} {list : List α} {a : α}
    (h : Walked children root i list) (ha : list[i]? = some a) :
    Walked children root (i + 1) (list ++ children a) := by
  obtain ⟨hi, hget⟩ := List.getElem?_eq_some_iff.mp ha
  have htake : (list ++ children a).take (i + 1) = list.take i ++ [a] := by
    rw [List.take_append_of_le_length hi, List.take_succ_eq_append_getElem hi, hget]
  have hmem : a ∈ list := hget ▸ List.getElem_mem hi
  refine ⟨?_, ?_, ?_⟩
  · rw [htake, List.flatMap_append, List.flatMap_singleton, ← List.cons_append, ← h.eq]
  · refine List.nodup_append.mpr ⟨h.nodup, hforest.nodup a, ?_⟩
    rintro b hb c hc rfl
    rw [h.eq, List.mem_cons] at hb
    rcases hb with rfl | hb
    · exact hforest.root a hc
    · -- the element was gone over before, and stands in the list a second time
      obtain ⟨b', hb', hchild⟩ := List.mem_flatMap.mp hb
      obtain rfl := hforest.apart b' a b hchild hc
      have hnodup := h.nodup
      rw [← List.take_append_drop i list, List.nodup_append] at hnodup
      refine hnodup.2.2 b' hb' b' ?_ rfl
      rw [List.drop_eq_getElem_cons hi, hget]
      exact List.mem_cons_self
  · intro b hb
    rcases List.mem_append.mp hb with hb | hb
    · exact h.reached b hb
    · exact (h.reached a hmem).tail hb

theorem Walked.length_le {i : ℕ} {list all : List α} (hall : ∀ a, children a ⊆ all)
    (h : Walked children root i list) : list.length ≤ all.length + 1 := by
  have hsub : list ⊆ root :: all := by
    intro b hb
    rw [h.eq, List.mem_cons] at hb
    rcases hb with rfl | hb
    · exact List.mem_cons_self
    · obtain ⟨a, -, hchild⟩ := List.mem_flatMap.mp hb
      exact List.mem_cons_of_mem _ (hall a hchild)
  exact (h.nodup.subperm hsub).length_le

/-- At the end the list has the descendants of the root, and no others. -/
theorem Walked.mem_iff {i : ℕ} {list : List α} (h : Walked children root i list)
    (hend : list.length ≤ i) (b : α) :
    b ∈ list ↔ Relation.ReflTransGen (fun a b => b ∈ children a) root b := by
  have heq := h.eq
  rw [List.take_of_length_le hend] at heq
  refine ⟨h.reached b, fun hreach => ?_⟩
  induction hreach with
  | refl => rw [heq]; exact List.mem_cons_self
  | tail _ hchild ih =>
    rw [heq]
    exact List.mem_cons_of_mem _ (List.mem_flatMap.mpr ⟨_, ih, hchild⟩)

/-- **The loop ends**, and has gone over the root and its descendants, each once. -/
theorem Forest.loop_spec (hforest : Forest children root) {all : List α}
    (hall : ∀ a, children a ⊆ all) : ∃ rest, loop children (all.length + 2) 0 [root] =
      some (root :: rest) ∧ (root :: rest).Nodup ∧
        ∀ b, b ∈ root :: rest ↔ Relation.ReflTransGen (fun a b => b ∈ children a) root b := by
  have hloop (rounds : ℕ) : ∀ i list, Walked children root i list → i ≤ list.length →
      all.length + 2 ≤ rounds + i → ∃ j final, loop children rounds i list = some final ∧
        Walked children root j final ∧ final.length ≤ j := by
    induction rounds with
    | zero =>
      intro i list h hi hrounds
      have := h.length_le hall
      omega
    | succ rounds ih =>
      intro i list h hi hrounds
      rw [loop]
      cases ha : list[i]? with
      | none => exact ⟨i, list, rfl, h, List.getElem?_eq_none_iff.mp ha⟩
      | some a =>
        have hlt := (List.getElem?_eq_some_iff.mp ha).1
        refine ih (i + 1) _ (h.step hforest ha) ?_ (by omega)
        rw [List.length_append]
        omega
  obtain ⟨j, final, hfinal, hwalked, hend⟩ :=
    hloop (all.length + 2) 0 [root] walked_init (Nat.zero_le _) (Nat.le_refl _)
  have heq := hwalked.eq
  rw [heq] at hfinal
  refine ⟨_, hfinal, heq ▸ hwalked.nodup, fun b => ?_⟩
  rw [← hwalked.mem_iff hend b, ← heq]

end Growing

end SingularityShell
