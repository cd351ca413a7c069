import Mathlib.Data.List.Nodup
import Mathlib.Tactic.TypeStar

/-!
# Queues by key

A table has a queue for each key that something waits under, and none for the other keys. It is the
same as one queue, of which each comer takes the first element with its key.

## Main definitions

* `Queues.enqueue`, `Queues.dequeue` — the operations of the table
* `Queues.Represents` — the queue that a table stands for
* `Queues.assign` — what each comer takes

## Main results

* `Queues.Represents.enqueue`, `Queues.Represents.dequeue` — the operations on the queue
* `Queues.assign_filter` — the comers with a key take the elements with this key in order
-/

namespace SingularityShell

namespace Queues

variable {κ α η : Type*} [DecidableEq κ]

/-- Put an element at the end of the queue of its key, which is made when there is none. -/
def enqueue (k : κ) (a : α) : List (κ × List α) → List (κ × List α)
  | [] => [(k, [a])]
  | (k', queue) :: table =>
    if k = k' then (k', queue ++ [a]) :: table else (k', queue) :: enqueue k a table

/-- The first element of the queue of a key, and the table without it. A queue that becomes empty is
removed. -/
def dequeue (k : κ) (table : List (κ × List α)) : Option (α × List (κ × List α)) :=
  match table.lookup k with
  | none => none
  | some [] => none
  | some (a :: queue) =>
    some (a, if queue = [] then table.filter fun p => p.1 ≠ k
      else table.map fun p => if p.1 = k then (k, queue) else p)

/-- The elements that wait under a key. -/
def waiting (k : κ) (table : List (κ × List α)) : List α := (table.lookup k).getD []

variable (key : α → κ)

/-- The table stands for one queue of elements that have a key each. -/
structure Represents (table : List (κ × List α)) (queue : List α) : Prop where
  filled : ∀ p ∈ table, p.2 ≠ []
  waiting : ∀ k, waiting k table = queue.filter fun a => key a = k

/-- What each comer takes from a queue: the first element with its key, if there is one. -/
def assign : List α → List (η × κ) → List (η × α)
  | _, [] => []
  | queue, (comer, k) :: comers =>
    match queue.find? fun a => key a = k with
    | some a => (comer, a) :: assign (queue.eraseP fun a => key a = k) comers
    | none => assign queue comers

variable {key} {table : List (κ × List α)} {queue : List α}

theorem represents_nil : Represents key [] [] where
  filled := nofun
  waiting _ := rfl

/-- Nothing waits when the table is empty, and only then. -/
theorem Represents.eq_nil_iff (h : Represents key table queue) : table = [] ↔ queue = [] := by
  constructor
  · rintro rfl
    refine List.eq_nil_iff_forall_not_mem.2 fun a hmem => ?_
    have hin : a ∈ queue.filter fun b => key b = key a :=
      List.mem_filter.2 ⟨hmem, decide_eq_true rfl⟩
    rw [← h.waiting (key a)] at hin
    exact absurd hin List.not_mem_nil
  · rintro rfl
    cases table with
    | nil => rfl
    | cons p table =>
      have hnil := h.waiting p.1
      rw [Queues.waiting, List.lookup_cons, beq_self_eq_true] at hnil
      exact absurd hnil (h.filled p List.mem_cons_self)

theorem waiting_enqueue (k k' : κ) (a : α) (table : List (κ × List α)) :
    waiting k' (enqueue k a table) = waiting k' table ++ if k = k' then [a] else [] := by
  induction table with
  | nil =>
    rw [enqueue, waiting, List.lookup_cons, waiting]
    by_cases hk : k = k'
    · simp [hk]
    · simp [hk, beq_eq_false_iff_ne.2 (Ne.symm hk)]
  | cons p table ih =>
    rw [enqueue]
    rw [waiting, waiting] at ih
    by_cases hk : k = p.1
    · rw [if_pos hk, waiting, waiting, List.lookup_cons, List.lookup_cons]
      by_cases hk' : k' = p.1
      · simp [hk, hk']
      · simp [hk, beq_eq_false_iff_ne.2 hk', Ne.symm hk']
    · rw [if_neg hk, waiting, waiting, List.lookup_cons, List.lookup_cons]
      by_cases hk' : k' = p.1
      · simp [hk', hk]
      · simp only [beq_eq_false_iff_ne.2 hk']
        exact ih

theorem filled_enqueue (h : ∀ p ∈ table, p.2 ≠ []) (k : κ) (a : α) :
    ∀ p ∈ enqueue k a table, p.2 ≠ [] := by
  induction table with
  | nil =>
    rintro p hp
    rw [List.mem_singleton.1 hp]
    exact List.cons_ne_nil a []
  | cons q table ih =>
    rw [enqueue]
    split_ifs
    · rintro p hp
      rcases List.mem_cons.1 hp with rfl | hp
      · exact List.append_ne_nil_of_right_ne_nil q.2 (List.cons_ne_nil a [])
      · exact h p (List.mem_cons_of_mem _ hp)
    · rintro p hp
      rcases List.mem_cons.1 hp with rfl | hp
      · exact h q List.mem_cons_self
      · exact ih (fun p hp => h p (List.mem_cons_of_mem _ hp)) p hp

/-- An element is put at the end. -/
theorem Represents.enqueue (h : Represents key table queue) (a : α) :
    Represents key (enqueue (key a) a table) (queue ++ [a]) where
  filled := filled_enqueue h.filled (key a) a
  waiting k := by
    rw [waiting_enqueue, h.waiting k, List.filter_append]
    by_cases hk : key a = k
    · rw [if_pos hk, List.filter_singleton, decide_eq_true hk]
      rfl
    · rw [if_neg hk, List.filter_singleton, decide_eq_false hk]
      rfl

theorem lookup_filter_ne (k k' : κ) (table : List (κ × List α)) :
    (table.filter fun p => p.1 ≠ k).lookup k' = if k' = k then none else table.lookup k' := by
  induction table with
  | nil => simp
  | cons p table ih =>
    rw [List.filter_cons]
    by_cases hp : p.1 = k
    · rw [if_neg (by simpa using hp), ih, List.lookup_cons]
      by_cases hk' : k' = k
      · rw [if_pos hk', if_pos hk']
      · rw [if_neg hk', if_neg hk', beq_eq_false_iff_ne.2 (hp ▸ hk')]
    · rw [if_pos (by simpa using hp), List.lookup_cons, List.lookup_cons, ih]
      by_cases hk' : k' = p.1
      · have hne : k' ≠ k := fun hk => hp (hk'.symm.trans hk)
        rw [if_neg hne, if_neg hne]
      · simp [beq_eq_false_iff_ne.2 hk']

theorem lookup_map_put (k k' : κ) (queue : List α) (table : List (κ × List α)) :
    (table.map fun p => if p.1 = k then (k, queue) else p).lookup k' =
      if k' = k then (table.lookup k).map fun _ => queue else table.lookup k' := by
  induction table with
  | nil => simp
  | cons p table ih =>
    rw [List.map_cons]
    by_cases hp : p.1 = k
    · rw [if_pos hp, List.lookup_cons, List.lookup_cons, List.lookup_cons, ih]
      by_cases hk' : k' = k
      · simp [hk', hp]
      · rw [if_neg hk', if_neg hk', beq_eq_false_iff_ne.2 hk', beq_eq_false_iff_ne.2 (hp ▸ hk')]
    · rw [if_neg hp, List.lookup_cons, List.lookup_cons, List.lookup_cons, ih]
      by_cases hk' : k' = k
      · simp [hk', beq_eq_false_iff_ne.2 (Ne.symm hp)]
      · simp [hk']

/-- What waits under each key after one was taken. -/
theorem waiting_of_dequeue {k : κ} {a : α} {table' : List (κ × List α)}
    (h : dequeue k table = some (a, table')) :
    ∃ rest, waiting k table = a :: rest ∧ waiting k table' = rest ∧
      ∀ k', k' ≠ k → waiting k' table' = waiting k' table := by
  rw [dequeue] at h
  split at h
  · cases h
  · cases h
  · next first rest hlookup =>
    obtain ⟨rfl, rfl⟩ := Prod.mk.inj (Option.some.inj h)
    refine ⟨rest, by rw [waiting, hlookup]; rfl, ?_, fun k' hk' => ?_⟩
    · split_ifs with hrest
      · rw [waiting, lookup_filter_ne, if_pos rfl, hrest]
        rfl
      · rw [waiting, lookup_map_put, if_pos rfl, hlookup]
        rfl
    · split_ifs
      · rw [waiting, lookup_filter_ne, if_neg hk', waiting]
      · rw [waiting, lookup_map_put, if_neg hk', waiting]

theorem filled_of_dequeue {k : κ} {a : α} {table' : List (κ × List α)}
    (h : dequeue k table = some (a, table')) (hfilled : ∀ p ∈ table, p.2 ≠ []) :
    ∀ p ∈ table', p.2 ≠ [] := by
  rw [dequeue] at h
  split at h
  · cases h
  · cases h
  · obtain ⟨-, rfl⟩ := Prod.mk.inj (Option.some.inj h)
    split_ifs with hrest
    · exact fun p hp => hfilled p (List.mem_filter.1 hp).1
    · rintro p hp
      obtain ⟨q, hq, rfl⟩ := List.mem_map.1 hp
      split_ifs
      · exact hrest
      · exact hfilled q hq

theorem filter_eraseP_self (p : α → Bool) (l : List α) :
    (l.eraseP p).filter p = (l.filter p).tail := by
  induction l with
  | nil => rfl
  | cons a l ih =>
    by_cases ha : p a = true
    · rw [List.eraseP_cons_of_pos ha, List.filter_cons_of_pos ha, List.tail_cons]
    · rw [List.eraseP_cons_of_neg ha, List.filter_cons_of_neg ha, List.filter_cons_of_neg ha, ih]

/-- Taking an element makes no difference to those of which it is none. -/
theorem filter_eraseP_of_disjoint {p q : α → Bool} (h : ∀ a, p a = true → q a = false)
    (l : List α) : (l.eraseP p).filter q = l.filter q := by
  induction l with
  | nil => rfl
  | cons a l ih =>
    by_cases ha : p a = true
    · have hq : ¬q a = true := by
        rw [h a ha]
        decide
      rw [List.eraseP_cons_of_pos ha, List.filter_cons_of_neg hq]
    · rw [List.eraseP_cons_of_neg ha, List.filter_cons, List.filter_cons, ih]

/-- The first element with a key is taken. -/
theorem Represents.dequeue (h : Represents key table queue) {k : κ} {a : α}
    {table' : List (κ × List α)} (ha : dequeue k table = some (a, table')) :
    queue.find? (fun b => key b = k) = some a ∧
      Represents key table' (queue.eraseP fun b => key b = k) := by
  obtain ⟨rest, hfirst, hrest, hothers⟩ := waiting_of_dequeue ha
  have hfilter : (queue.filter fun b => key b = k) = a :: rest := (h.waiting k).symm.trans hfirst
  refine ⟨?_, filled_of_dequeue ha h.filled, fun k' => ?_⟩
  · rw [← List.head?_filter, hfilter]
    rfl
  · by_cases hk' : k' = k
    · rw [hk', hrest, filter_eraseP_self, hfilter]
      rfl
    · rw [hothers k' hk', h.waiting k', filter_eraseP_of_disjoint fun b hb => ?_]
      exact decide_eq_false fun hk'' => hk' (hk''.symm.trans (of_decide_eq_true hb))

/-- Nothing is taken for a key under which nothing waits. -/
theorem Represents.dequeue_eq_none_iff (h : Represents key table queue) {k : κ} :
    Queues.dequeue k table = none ↔ queue.find? (fun a => key a = k) = none := by
  have hwaiting := h.waiting k
  rw [← List.head?_filter, ← hwaiting, Queues.waiting, Queues.dequeue]
  rcases hlookup : table.lookup k with _ | _ | ⟨a, rest⟩
  · exact iff_of_true rfl rfl
  · exact iff_of_true rfl rfl
  · exact iff_of_false nofun nofun

/-! ### What the comers take -/

variable (key) in
/-- **The comers with a key take the elements with this key in order.** -/
theorem assign_filter (k : κ) (queue : List α) (comers : List (η × κ)) :
    (assign key queue comers).filter (fun p => key p.2 = k) =
      ((comers.filter fun c => c.2 = k).map Prod.fst).zip (queue.filter fun a => key a = k) := by
  induction comers generalizing queue with
  | nil => rfl
  | cons comer comers ih =>
    rw [assign]
    split
    · next a hfind =>
      have hkey : key a = comer.2 := by simpa using List.find?_some hfind
      by_cases hk : comer.2 = k
      · have hhead : (queue.filter fun b => key b = k).head? = some a := by
          rw [List.head?_filter, ← hk, hfind]
        obtain ⟨rest, hrest⟩ : ∃ rest, (queue.filter fun b => key b = k) = a :: rest := by
          obtain ⟨rest, h⟩ := List.head?_eq_some_iff.1 hhead
          exact ⟨rest, h⟩
        rw [List.filter_cons_of_pos (by simpa using hkey.trans hk), ih,
          List.filter_cons_of_pos (by simpa using hk), hk, filter_eraseP_self, hrest]
        rfl
      · have hne : key a ≠ k := fun h => hk (hkey.symm.trans h)
        rw [List.filter_cons_of_neg (by simpa using hne), ih,
          List.filter_cons_of_neg (by simpa using hk),
          filter_eraseP_of_disjoint fun b hb => ?_]
        exact decide_eq_false fun hb' => hk ((of_decide_eq_true hb).symm.trans hb')
    · next hnone =>
      rw [ih]
      by_cases hk : comer.2 = k
      · have hnil : (queue.filter fun b => key b = k) = [] := by
          rw [← List.head?_eq_none_iff, List.head?_filter, ← hk, hnone]
        rw [hnil, List.zip_nil_right, List.zip_nil_right]
      · rw [List.filter_cons_of_neg (by simpa using hk)]

/-- What is taken is of the queue, and each element is taken once. -/
theorem assign_sublist (queue : List α) (comers : List (η × κ)) :
    ((assign key queue comers).map Prod.fst).Sublist (comers.map Prod.fst) := by
  induction comers generalizing queue with
  | nil => exact List.Sublist.refl _
  | cons comer comers ih =>
    rw [assign]
    split
    · exact (ih _).cons_cons _
    · exact (ih queue).cons _

theorem assign_nil_left (comers : List (η × κ)) : assign key [] comers = [] := by
  induction comers with
  | nil => rfl
  | cons comer comers ih => exact ih

end Queues

end SingularityShell
