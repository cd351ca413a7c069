import Mathlib.Algebra.Order.Ring.Int
import Mathlib.Data.List.Basic

/-!
# Checked arrays

An array is read and written by an index that is an integer, and a new one has a size that is an
integer. An index outside and a negative size are faults, which end a program: it is `none` from
there on.

## Main definitions

* `Buffer.read`, `Buffer.write`, `Buffer.new`, `Buffer.slice` — the operations
* `Buffer.loop` — a loop with a counter

## Main results

* `Buffer.loop_invariant` — what every round keeps, the loop keeps, and it has no fault
-/

namespace SingularityShell

namespace Buffer

variable {α σ : Type*}

def read (data : List α) (i : ℤ) : Option α := if 0 ≤ i then data[i.toNat]? else none

def write (data : List α) (i : ℤ) (a : α) : Option (List α) :=
  if 0 ≤ i ∧ i < data.length then some (data.set i.toNat a) else none

/-- A new array. -/
def new (size : ℤ) (a : α) : Option (List α) :=
  if 0 ≤ size then some (List.replicate size.toNat a) else none

/-- The elements from one index to another, without that. -/
def slice (data : List α) (first last : ℕ) : Option (List α) :=
  if first ≤ last ∧ last ≤ data.length then some ((data.take last).drop first) else none

/-- A quotient of integers, which has a fault where the divisor is zero. -/
def quotient (a b : ℤ) : Option ℤ := if b = 0 then none else some (a.tdiv b)

/-- A loop over the numbers below `n`. -/
def loop (body : ℕ → σ → Option σ) : ℕ → σ → Option σ
  | 0, s => some s
  | n + 1, s => (loop body n s).bind (body n)

theorem read_of_lt (data : List α) {i : ℤ} (h : 0 ≤ i) (h' : i < data.length) :
    ∃ a, read data i = some a := by
  refine ⟨data[i.toNat], ?_⟩
  rw [read, if_pos h]
  exact List.getElem?_eq_getElem _

theorem write_of_lt (data : List α) {i : ℤ} (h : 0 ≤ i) (h' : i < data.length) (a : α) :
    ∃ data', write data i a = some data' ∧ data'.length = data.length :=
  ⟨_, if_pos ⟨h, h'⟩, List.length_set⟩

theorem new_of_nonneg {size : ℤ} (h : 0 ≤ size) (a : α) :
    ∃ data, new size a = some data ∧ (data.length : ℤ) = size := by
  refine ⟨_, if_pos h, ?_⟩
  rw [List.length_replicate]
  omega

theorem slice_of_le (data : List α) {first last : ℕ} (h : first ≤ last)
    (h' : last ≤ data.length) :
    ∃ part, slice data first last = some part ∧ part.length = last - first := by
  refine ⟨_, if_pos ⟨h, h'⟩, ?_⟩
  rw [List.length_drop, List.length_take, min_eq_left h']

theorem slice_append (before data after : List α) :
    slice (before ++ data ++ after) before.length (before.length + data.length) = some data := by
  have htake : (before ++ data ++ after).take (before.length + data.length) = before ++ data := by
    rw [← List.length_append, List.take_left]
  rw [slice, if_pos ⟨by omega, by simp⟩, htake, List.drop_left]

theorem read_append (before data after : List α) {i : ℕ} (h : i < data.length) :
    read (before ++ data ++ after) ((before.length : ℤ) + i) = some data[i] := by
  have hindex : ((before.length : ℤ) + i).toNat = before.length + i := by omega
  rw [read, if_pos (by omega), hindex, List.append_assoc, List.getElem?_append_right (by omega),
    Nat.add_sub_cancel_left, List.getElem?_append_left h]
  exact List.getElem?_eq_getElem h

/-- **The rule of loops.** -/
theorem loop_invariant (body : ℕ → σ → Option σ) {P : ℕ → σ → Prop} {n : ℕ} {s : σ}
    (hbody : ∀ i < n, ∀ s, P i s → ∃ s', body i s = some s' ∧ P (i + 1) s') (h : P 0 s) :
    ∃ s', loop body n s = some s' ∧ P n s' := by
  induction n with
  | zero => exact ⟨s, rfl, h⟩
  | succ n ih =>
    obtain ⟨s', hloop, hs'⟩ := ih fun i hi => hbody i (by omega)
    obtain ⟨s'', hnext, hs''⟩ := hbody n (by omega) s' hs'
    refine ⟨s'', ?_, hs''⟩
    rw [loop, hloop, Option.bind_some, hnext]

/-- What a round keeps where it has no fault, the loop keeps where it has none. -/
theorem of_loop_eq_some {body : ℕ → σ → Option σ} {P : σ → Prop} {n : ℕ} {s s' : σ}
    (hbody : ∀ i s s', P s → body i s = some s' → P s') (h : P s)
    (hloop : loop body n s = some s') : P s' := by
  induction n generalizing s' with
  | zero =>
    obtain rfl := Option.some_inj.mp hloop
    exact h
  | succ n ih =>
    obtain ⟨t, ht, hnext⟩ := Option.bind_eq_some_iff.mp hloop
    exact hbody n t s' (ih ht) hnext

theorem length_of_write {data data' : List α} {i : ℤ} {a : α} (h : write data i a = some data') :
    data'.length = data.length := by
  rw [write] at h
  split_ifs at h
  obtain rfl := Option.some_inj.mp h
  exact List.length_set

theorem length_of_new {size : ℤ} {a : α} {data : List α} (h : new size a = some data) :
    (data.length : ℤ) = size := by
  rw [new] at h
  split_ifs at h with hpos
  obtain rfl := Option.some_inj.mp h
  rw [List.length_replicate]
  omega

end Buffer

end SingularityShell
