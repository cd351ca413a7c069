import Mathlib.Algebra.Order.Group.Defs
import Mathlib.Data.List.Induction
import Mathlib.Data.List.TakeWhile

/-!
# Sliding windows

How many moments of a list fall in a window of a fixed length, and the bound that there is on them
when each moment was let in below a limit.

## Main definitions

* `Window.count` — the moments in the window that ends at a time
* `Window.Recent` — what a lazy pruning has kept
* `Window.Spaced` — each moment had fewer than `n` before it in its window

## Main results

* `Window.Recent.dropWhile_eq` — the next pruning leaves all that is in the window
* `Window.count_le` — spaced moments are at most `n` in every window
-/

namespace SingularityShell

namespace Window

variable {τ : Type*} [AddCommGroup τ] [LinearOrder τ] [IsOrderedAddMonoid τ]

/-- The moments in the window of length `w` that ends at `t`, which is open at its start. -/
def count (w t : τ) (l : List τ) : ℕ := l.countP fun x => t - w < x ∧ x ≤ t

/-- Before each moment there are fewer than `n` in the window that ends at it. -/
def Spaced (w : τ) (n : ℕ) (l : List τ) : Prop :=
  ∀ pre x post, l = pre ++ x :: post → count w x pre < n

omit [IsOrderedAddMonoid τ] in
theorem length_filter_eq_count {w t : τ} {l : List τ} (h : ∀ x ∈ l, x ≤ t) :
    (l.filter (t - w < ·)).length = count w t l := by
  rw [count, List.countP_eq_length_filter]
  refine congrArg List.length (List.filter_congr fun x hx => ?_)
  rw [decide_eq_decide]
  exact ⟨fun hlt => ⟨hlt, h x hx⟩, And.left⟩

/-! ### Lazy pruning -/

section Recent

omit [AddCommGroup τ] [IsOrderedAddMonoid τ]

/-- What is kept of a list, where what is gone from its front is not after `cutoff`. -/
def Recent (cutoff : τ) (kept l : List τ) : Prop :=
  ∃ old, l = old ++ kept ∧ ∀ x ∈ old, x ≤ cutoff

variable {l kept : List τ} {c d : τ}

theorem Recent.mono (h : Recent c kept l) (hcd : c ≤ d) : Recent d kept l := by
  obtain ⟨old, hl, hold⟩ := h
  exact ⟨old, hl, fun x hx => (hold x hx).trans hcd⟩

theorem Recent.append (h : Recent c kept l) (l' : List τ) : Recent c (kept ++ l') (l ++ l') := by
  obtain ⟨old, rfl, hold⟩ := h
  exact ⟨old, List.append_assoc .., hold⟩

theorem Recent.dropWhile (h : Recent c kept l) : Recent c (kept.dropWhile (· ≤ c)) l := by
  obtain ⟨old, rfl, hold⟩ := h
  refine ⟨old ++ kept.takeWhile (· ≤ c), ?_, fun x hx => ?_⟩
  · rw [List.append_assoc, List.takeWhile_append_dropWhile]
  · rcases List.mem_append.mp hx with hx | hx
    · exact hold x hx
    · have hle := List.mem_takeWhile_imp hx
      exact of_decide_eq_true hle

theorem dropWhile_eq_filter (hl : l.Pairwise (· ≤ ·)) :
    l.dropWhile (· ≤ c) = l.filter (c < ·) := by
  induction l with
  | nil => rfl
  | cons x l ih =>
    obtain ⟨hfirst, hrest⟩ := List.pairwise_cons.mp hl
    by_cases hx : x ≤ c
    · rw [List.dropWhile_cons_of_pos (by simpa using hx),
        List.filter_cons_of_neg (by simpa using hx), ih hrest]
    · -- everything that follows is later still
      have hall : ∀ y ∈ x :: l, c < y := by
        rintro y (_ | ⟨_, hy⟩)
        · exact not_le.mp hx
        · exact (not_le.mp hx).trans_le (hfirst y hy)
      rw [List.filter_eq_self.mpr fun y hy => decide_eq_true (hall y hy),
        List.dropWhile_cons_of_neg (by simpa using hx)]

/-- Dropping the front of what is kept leaves all that is after the cutoff. -/
theorem Recent.dropWhile_eq (h : Recent c kept l) (hl : l.Pairwise (· ≤ ·)) :
    kept.dropWhile (· ≤ c) = l.filter (c < ·) := by
  obtain ⟨old, rfl, hold⟩ := h
  have hgone : old.filter (c < ·) = [] :=
    List.filter_eq_nil_iff.mpr fun x hx => by simpa using hold x hx
  rw [List.filter_append, hgone, List.nil_append,
    dropWhile_eq_filter (List.pairwise_append.mp hl).2.1]

end Recent

/-! ### The bound -/

omit [IsOrderedAddMonoid τ] in
theorem Spaced.of_append {w : τ} {n : ℕ} {l l' : List τ} (h : Spaced w n (l ++ l')) :
    Spaced w n l := by
  intro pre x post hl
  refine h pre x (post ++ l') ?_
  rw [hl, List.append_assoc, List.cons_append]

/-- **The bound on every window.** Where each moment was let in below the limit, no window holds
more than the limit. -/
theorem count_le {w : τ} {n : ℕ} {l : List τ} (hl : l.Pairwise (· ≤ ·)) (h : Spaced w n l)
    (t : τ) : count w t l ≤ n := by
  induction l using List.reverseRecOn with
  | nil => exact Nat.zero_le n
  | append_singleton pre x ih =>
    obtain ⟨hpre, -, hlast⟩ := List.pairwise_append.mp hl
    have hbefore := ih hpre h.of_append
    have hsplit : count w t (pre ++ [x]) = count w t pre + count w t [x] :=
      List.countP_append
    by_cases hx : t - w < x ∧ x ≤ t
    · have hone : count w t [x] = 1 := by simp [count, hx]
      have hwindow : count w t pre ≤ count w x pre := by
        refine List.countP_mono_left fun y hy hin => ?_
        have hin' := of_decide_eq_true hin
        exact decide_eq_true
          ⟨(sub_le_sub_right hx.2 w).trans_lt hin'.1, hlast y hy x (List.mem_singleton_self x)⟩
      have hlet := h pre x [] rfl
      omega
    · have hnone : count w t [x] = 0 := by simp [count, hx]
      omega

end Window

end SingularityShell
