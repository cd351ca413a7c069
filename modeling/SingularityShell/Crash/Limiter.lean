import Mathlib.Data.Int.Order.Basic
import SingularityShell.Lib.Ascii
import SingularityShell.Lib.Lists
import SingularityShell.Lib.Window

/-!
# `RateLimiter`: how many crashes are shown

A crash is shown unless its application, or all applications together, have had as many shown in
a window of time that ends now. The times of what was shown are kept in two lists, which are pruned
when the next call comes.

A time is a number of seconds, far from the ends of an `int64`.

## Main definitions

* `Crash.RateLimiter`, `Crash.RateLimiter.check`
* `Crash.RateLimiter.answers` — the answers to a sequence of calls
* `Crash.Limits.Lawful` — each answer is the one that the answers before it ask for

## Main results

* `Crash.RateLimiter.lawful_answers` — pruning late makes no difference
* `Crash.RateLimiter.answers_spec` — the limits hold in every window
-/

namespace SingularityShell

namespace Crash

open Ascii

/-- `RateLimiter.Verdict`. -/
inductive Verdict
  | shown
  | repeated
  | suppress
  deriving DecidableEq, Repr

/-- The construct properties of `RateLimiter`. -/
structure Limits where
  windowSeconds : Int32 := 600
  maxPerApp : Int32 := 3
  globalWindowSeconds : Int32 := 60
  maxGlobal : Int32 := 5

structure RateLimiter extends Limits where
  perApp : Text → Option (List ℤ) := fun _ => none
  global : List ℤ := []

structure Call where
  app : Text
  now : ℤ
  deriving DecidableEq

/-- A call and its verdict. -/
structure Answer extends Call where
  verdict : Verdict
  deriving DecidableEq

namespace RateLimiter

/-- `prune`. -/
def prune (entries : List ℤ) (cutoff : ℤ) : List ℤ := entries.dropWhile (· ≤ cutoff)

/-- `check`. A length is a `guint`, and so is the limit that it is compared with. -/
def check (s : RateLimiter) (app : Text) (now : ℤ) : Verdict × RateLimiter :=
  let global := prune s.global (now - s.globalWindowSeconds.toInt)
  let entries := prune ((s.perApp app).getD []) (now - s.windowSeconds.toInt)
  if s.maxGlobal.toUInt32.toNat ≤ global.length ∨ s.maxPerApp.toUInt32.toNat ≤ entries.length then
    (.suppress, { s with global := global, perApp := Function.update s.perApp app (some entries) })
  else
    (if (entries ++ [now]).length = s.maxPerApp.toUInt32.toNat then .repeated else .shown,
      { s with
        global := global ++ [now]
        perApp := Function.update s.perApp app (some (entries ++ [now])) })

/-- The answers to calls that come one after the other. -/
def answers (s : RateLimiter) : List Call → List Answer
  | [] => []
  | c :: calls =>
    { c with verdict := (s.check c.app c.now).1 } :: answers (s.check c.app c.now).2 calls

end RateLimiter

/-! ### What the limiter is for -/

/-- When something was shown. -/
def times (log : List Answer) : List ℤ := (log.filter (·.verdict ≠ .suppress)).map (·.now)

/-- When something of an application was shown. -/
def timesOf (app : Text) (log : List Answer) : List ℤ := times (log.filter (·.app = app))

namespace Limits

variable (k : Limits)

/-- What was shown in the windows that end at a time. -/
def inGlobal (log : List Answer) (t : ℤ) : ℕ :=
  Window.count k.globalWindowSeconds.toInt t (times log)

def inApp (log : List Answer) (app : Text) (t : ℤ) : ℕ :=
  Window.count k.windowSeconds.toInt t (timesOf app log)

/-- The verdict that the answers so far ask for. -/
def ideal (log : List Answer) (c : Call) : Verdict :=
  if k.maxGlobal.toInt ≤ k.inGlobal log c.now ∨ k.maxPerApp.toInt ≤ k.inApp log c.app c.now then
    .suppress
  else if k.inApp log c.app c.now + 1 = k.maxPerApp.toInt then .repeated
  else .shown

/-- Each answer is the one that the answers before it ask for. -/
def Lawful (log : List Answer) : Prop :=
  ∀ pre a post, log = pre ++ a :: post → a.verdict = k.ideal pre a.toCall

end Limits

@[simp] theorem times_append (log log' : List Answer) :
    times (log ++ log') = times log ++ times log' := by
  rw [times, List.filter_append, List.map_append, times, times]

@[simp] theorem timesOf_append (app : Text) (log log' : List Answer) :
    timesOf app (log ++ log') = timesOf app log ++ timesOf app log' := by
  rw [timesOf, List.filter_append, times_append, timesOf, timesOf]

theorem times_singleton (a : Answer) :
    times [a] = if a.verdict = .suppress then [] else [a.now] := by
  by_cases ha : a.verdict = .suppress
  · simp [times, ha]
  · simp [times, ha]

theorem timesOf_singleton (app : Text) (a : Answer) :
    timesOf app [a] = if a.app = app then times [a] else [] := by
  by_cases ha : a.app = app
  · simp [timesOf, ha]
  · simp [timesOf, ha, times]

theorem times_subset {log : List Answer} {x : ℤ} (h : x ∈ times log) : ∃ a ∈ log, a.now = x := by
  obtain ⟨a, ha, rfl⟩ := List.mem_map.mp h
  exact ⟨a, (List.mem_filter.mp ha).1, rfl⟩

theorem timesOf_sublist (app : Text) (log : List Answer) :
    (timesOf app log).Sublist (times log) :=
  (List.filter_sublist.filter _).map _

/-- Suppressed calls never count. -/
theorem times_filter (log : List Answer) :
    times (log.filter (·.verdict ≠ .suppress)) = times log := by
  rw [times, List.filter_filter, times]
  simp

theorem timesOf_filter (app : Text) (log : List Answer) :
    timesOf app (log.filter (·.verdict ≠ .suppress)) = timesOf app log := by
  rw [timesOf, List.filter_comm, times_filter, timesOf]

/-! ### Lawful logs -/

namespace Limits

variable {k : Limits}

theorem lawful_nil : k.Lawful [] := by
  intro pre a post h
  exact absurd h.symm (List.append_ne_nil_of_right_ne_nil _ (List.cons_ne_nil _ _))

theorem Lawful.concat {log : List Answer} {a : Answer} (h : k.Lawful log)
    (ha : a.verdict = k.ideal log a.toCall) : k.Lawful (log ++ [a]) := by
  intro pre b post hsplit
  rcases Lists.concat_eq_append_cons hsplit with ⟨rfl, rfl, -⟩ | ⟨post', -, hlog⟩
  · exact ha
  · exact h pre b post' hlog

theorem Lawful.of_append {log log' : List Answer} (h : k.Lawful (log ++ log')) :
    k.Lawful log := by
  intro pre a post hlog
  refine h pre a (post ++ log') ?_
  rw [hlog, List.append_assoc, List.cons_append]

/-- The calls determine a lawful log. -/
theorem Lawful.eq_of_calls {log log' : List Answer} (h : k.Lawful log) (h' : k.Lawful log')
    (hcalls : log.map Answer.toCall = log'.map Answer.toCall) : log = log' := by
  induction log using List.reverseRecOn generalizing log' with
  | nil =>
    exact (List.map_eq_nil_iff.mp hcalls.symm).symm
  | append_singleton log a ih =>
    rcases List.eq_nil_or_concat' log' with rfl | ⟨log'', a', rfl⟩
    · simp at hcalls
    · rw [List.map_append, List.map_append] at hcalls
      obtain ⟨hinit, hlast⟩ := List.append_inj' hcalls rfl
      obtain rfl := ih h.of_append h'.of_append hinit
      have hcall : a.toCall = a'.toCall := (List.cons.inj hlast).1
      have hverdict : a.verdict = a'.verdict := by
        rw [h log a [] rfl, h' log a' [] rfl, hcall]
      obtain ⟨c, v⟩ := a
      obtain ⟨c', v'⟩ := a'
      obtain rfl : c = c' := hcall
      obtain rfl : v = v' := hverdict
      rfl

/-- Without the calls that were suppressed a log is lawful. -/
theorem Lawful.filter {log : List Answer} (h : k.Lawful log) :
    k.Lawful (log.filter (·.verdict ≠ .suppress)) := by
  intro pre a post hsplit
  obtain ⟨before, rest, rfl, rfl, hrest⟩ := List.filter_eq_append_iff.mp hsplit
  obtain ⟨skipped, after, rfl, hskipped, -, -⟩ := List.filter_eq_cons_iff.mp hrest
  have hnone : skipped.filter (·.verdict ≠ .suppress) = [] :=
    List.filter_eq_nil_iff.mpr hskipped
  have hall : (before ++ skipped).filter (·.verdict ≠ .suppress) =
      before.filter (·.verdict ≠ .suppress) := by
    rw [List.filter_append, hnone, List.append_nil]
  have ha := h (before ++ skipped) a after (by rw [List.append_assoc])
  rw [ha, ideal, inGlobal, inApp, ← times_filter, ← timesOf_filter, hall, times_filter,
    timesOf_filter]
  rw [ideal, inGlobal, inApp, times_filter, timesOf_filter]

end Limits

/-! ### Late pruning -/

namespace RateLimiter

/-- The lists hold what was shown, but for moments that are out of the window at `t`. -/
structure Kept (s : RateLimiter) (log : List Answer) (t : ℤ) : Prop where
  sorted : (times log).Pairwise (· ≤ ·)
  past : ∀ a ∈ log, a.now ≤ t
  global : Window.Recent (t - s.globalWindowSeconds.toInt) s.global (times log)
  perApp : ∀ app, Window.Recent (t - s.windowSeconds.toInt) ((s.perApp app).getD [])
    (timesOf app log)

variable {s : RateLimiter} {log : List Answer} {t : ℤ}

theorem Kept.mono (h : s.Kept log t) {t' : ℤ} (ht : t ≤ t') : s.Kept log t' where
  sorted := h.sorted
  past a ha := (h.past a ha).trans ht
  global := h.global.mono (by omega)
  perApp app := (h.perApp app).mono (by omega)

theorem Kept.sortedOf (h : s.Kept log t) (app : Text) : (timesOf app log).Pairwise (· ≤ ·) :=
  h.sorted.sublist (timesOf_sublist app log)

theorem Kept.times_le (h : s.Kept log t) : ∀ x ∈ times log, x ≤ t := by
  intro x hx
  obtain ⟨a, ha, rfl⟩ := times_subset hx
  exact h.past a ha

/-- After pruning, the list of all holds what is in the window. -/
theorem Kept.length_global (h : s.Kept log t) :
    (prune s.global (t - s.globalWindowSeconds.toInt)).length = s.inGlobal log t := by
  rw [prune, h.global.dropWhile_eq h.sorted, Window.length_filter_eq_count h.times_le,
    Limits.inGlobal]

/-- So does the list of an application. -/
theorem Kept.length_perApp (h : s.Kept log t) (app : Text) :
    (prune ((s.perApp app).getD []) (t - s.windowSeconds.toInt)).length = s.inApp log app t := by
  rw [prune, (h.perApp app).dropWhile_eq (h.sortedOf app), Window.length_filter_eq_count,
    Limits.inApp]
  exact fun x hx => h.times_le x ((timesOf_sublist app log).subset hx)

/-- As a `guint` a limit that is positive is what it is. -/
theorem toNat_toUInt32 {n : Int32} (h : 1 ≤ n.toInt) : (n.toUInt32.toNat : ℤ) = n.toInt := by
  have hcast : n.toInt = n.toBitVec.toInt := rfl
  have hnat : n.toUInt32.toNat = n.toBitVec.toNat := rfl
  rw [hcast, BitVec.toInt_eq_toNat_cond] at h ⊢
  rw [hnat]
  have hbound := n.toBitVec.isLt
  split_ifs at h ⊢ <;> omega

section Positive

variable (happ : 1 ≤ s.maxPerApp.toInt) (hglobal : 1 ≤ s.maxGlobal.toInt)
include happ hglobal

/-- The test of `check` is the one on the windows. -/
theorem Kept.full_iff (h : s.Kept log t) (app : Text) :
    (s.maxGlobal.toUInt32.toNat ≤ (prune s.global (t - s.globalWindowSeconds.toInt)).length ∨
      s.maxPerApp.toUInt32.toNat ≤
        (prune ((s.perApp app).getD []) (t - s.windowSeconds.toInt)).length) ↔
    s.maxGlobal.toInt ≤ s.inGlobal log t ∨ s.maxPerApp.toInt ≤ s.inApp log app t := by
  rw [h.length_global, h.length_perApp, ← toNat_toUInt32 happ, ← toNat_toUInt32 hglobal,
    Int.ofNat_le, Int.ofNat_le]

theorem Kept.verdict_check (h : s.Kept log t) (app : Text) :
    (s.check app t).1 = s.ideal log ⟨app, t⟩ := by
  rw [RateLimiter.check]
  by_cases hfull : s.maxGlobal.toInt ≤ s.inGlobal log t ∨ s.maxPerApp.toInt ≤ s.inApp log app t
  · rw [if_pos ((h.full_iff happ hglobal app).mpr hfull), Limits.ideal, if_pos hfull]
  · rw [if_neg (mt (h.full_iff happ hglobal app).mp hfull), Limits.ideal, if_neg hfull]
    refine if_congr ?_ rfl rfl
    rw [List.length_append, h.length_perApp, ← toNat_toUInt32 happ]
    exact Int.ofNat_inj.symm

end Positive

/-- A call prunes the two lists and adds its moment to both or to neither. -/
theorem state_check (s : RateLimiter) (app : Text) (now : ℤ) :
    (s.check app now).2 = { s with
      global := prune s.global (now - s.globalWindowSeconds.toInt) ++
        times [⟨⟨app, now⟩, (s.check app now).1⟩]
      perApp := Function.update s.perApp app
        (some (prune ((s.perApp app).getD []) (now - s.windowSeconds.toInt) ++
          times [⟨⟨app, now⟩, (s.check app now).1⟩])) } := by
  rw [times_singleton, check]
  by_cases hfull :
      s.maxGlobal.toUInt32.toNat ≤ (prune s.global (now - s.globalWindowSeconds.toInt)).length ∨
        s.maxPerApp.toUInt32.toNat ≤
          (prune ((s.perApp app).getD []) (now - s.windowSeconds.toInt)).length
  · rw [if_pos hfull, if_pos rfl, List.append_nil, List.append_nil]
  · have hrepeated : Verdict.repeated ≠ .suppress := by decide
    have hshown : Verdict.shown ≠ .suppress := by decide
    rw [if_neg hfull]
    by_cases hreach : (prune ((s.perApp app).getD []) (now - s.windowSeconds.toInt) ++
        [now]).length = s.maxPerApp.toUInt32.toNat
    · rw [if_pos hreach, if_neg hrepeated]
    · rw [if_neg hreach, if_neg hshown]

theorem Kept.check (h : s.Kept log t) (app : Text) :
    (s.check app t).2.Kept (log ++ [⟨⟨app, t⟩, (s.check app t).1⟩]) t := by
  have hnew : ∀ x ∈ times [⟨⟨app, t⟩, (s.check app t).1⟩], x = t := by
    intro x hx
    obtain ⟨a, ha, rfl⟩ := times_subset hx
    rw [List.mem_singleton.mp ha]
  rw [state_check]
  refine ⟨?_, ?_, ?_, fun other => ?_⟩
  · rw [times_append, List.pairwise_append]
    refine ⟨h.sorted, ?_, fun x hx y hy => hnew y hy ▸ h.times_le x hx⟩
    exact List.pairwise_of_forall_mem_list fun x hx y hy => (hnew x hx).trans_le (hnew y hy).ge
  · intro a ha
    rcases List.mem_append.mp ha with ha | ha
    · exact h.past a ha
    · rw [List.mem_singleton.mp ha]
  · rw [times_append]
    exact h.global.dropWhile.append _
  · rw [timesOf_append, timesOf_singleton]
    by_cases hother : app = other
    · subst hother
      dsimp only
      rw [if_pos rfl, Function.update_self]
      exact (h.perApp app).dropWhile.append _
    · dsimp only
      rw [if_neg hother, List.append_nil, Function.update_of_ne (Ne.symm hother)]
      exact h.perApp other

/-- Every answer is the one that the answers before it ask for. -/
theorem Kept.lawful_append (h : s.Kept log t) (happ : 1 ≤ s.maxPerApp.toInt)
    (hglobal : 1 ≤ s.maxGlobal.toInt) (hlog : s.Lawful log) {calls : List Call}
    (hcalls : calls.Pairwise (·.now ≤ ·.now)) (hnext : ∀ c ∈ calls, t ≤ c.now) :
    s.Lawful (log ++ s.answers calls) ∧ (times (log ++ s.answers calls)).Pairwise (· ≤ ·) := by
  induction calls generalizing s log t with
  | nil =>
    rw [answers, List.append_nil]
    exact ⟨hlog, h.sorted⟩
  | cons c calls ih =>
    obtain ⟨hfirst, hrest⟩ := List.pairwise_cons.mp hcalls
    have hnow := h.mono (hnext c List.mem_cons_self)
    have hlimits : (s.check c.app c.now).2.toLimits = s.toLimits := by rw [state_check]
    have hsplit : log ++ s.answers (c :: calls) =
        log ++ [⟨c, (s.check c.app c.now).1⟩] ++ (s.check c.app c.now).2.answers calls := by
      rw [answers, List.append_assoc, List.singleton_append]
    have hverdict := hnow.verdict_check happ hglobal c.app
    rw [hsplit]
    have hgoal := ih (hnow.check c.app) (hlimits ▸ happ) (hlimits ▸ hglobal)
      (hlimits ▸ hlog.concat hverdict) hrest hfirst
    rwa [hlimits] at hgoal

/-- A limiter that has not been asked yet. -/
def new (k : Limits) : RateLimiter := { k with }

/-- **Pruning late makes no difference.** The answers to calls in the order of time are those that
the windows ask for. -/
theorem lawful_answers {k : Limits} (happ : 1 ≤ k.maxPerApp.toInt)
    (hglobal : 1 ≤ k.maxGlobal.toInt) {calls : List Call}
    (hcalls : calls.Pairwise (·.now ≤ ·.now)) :
    k.Lawful ((new k).answers calls) ∧
      (times ((new k).answers calls)).Pairwise (· ≤ ·) := by
  cases calls with
  | nil => exact ⟨Limits.lawful_nil, List.Pairwise.nil⟩
  | cons c calls =>
    have hkept : (new k).Kept [] c.now :=
      ⟨List.Pairwise.nil, by simp, ⟨[], rfl, by simp⟩, fun _ => ⟨[], rfl, by simp⟩⟩
    have hnext : ∀ d ∈ c :: calls, c.now ≤ d.now := by
      rintro d (_ | ⟨_, hd⟩)
      · exact le_refl _
      · exact (List.pairwise_cons.mp hcalls).1 d hd
    exact hkept.lawful_append happ hglobal Limits.lawful_nil hcalls hnext

theorem answers_calls (s : RateLimiter) (calls : List Call) :
    (s.answers calls).map Answer.toCall = calls := by
  induction calls generalizing s with
  | nil => rfl
  | cons c calls ih => rw [answers, List.map_cons, ih]

end RateLimiter

namespace Limits

variable {k : Limits} {log : List Answer}

/-- What was let in was let in below the limits. -/
theorem Lawful.below (h : k.Lawful log) {pre post : List Answer} {a : Answer}
    (hlog : log = pre ++ a :: post) (ha : a.verdict ≠ .suppress) :
    (k.inGlobal pre a.now : ℤ) < k.maxGlobal.toInt ∧
      (k.inApp pre a.app a.now : ℤ) < k.maxPerApp.toInt := by
  have hverdict := h pre a post hlog
  by_cases hfull : k.maxGlobal.toInt ≤ k.inGlobal pre a.now ∨
      k.maxPerApp.toInt ≤ k.inApp pre a.app a.now
  · rw [ideal, if_pos hfull] at hverdict
    exact absurd hverdict ha
  · rw [not_or, not_le, not_le] at hfull
    exact hfull

/-- The last of the moments before which a list of times is split. -/
theorem exists_of_times {pre post : List ℤ} {x : ℤ} (h : times log = pre ++ x :: post) :
    ∃ before a after, log = before ++ a :: after ∧ times before = pre ∧ a.now = x ∧
      a.verdict ≠ .suppress := by
  obtain ⟨front, back, hlog, hfront, hback⟩ := List.map_eq_append_iff.mp h
  obtain ⟨a, rest, rfl, rfl, -⟩ := List.map_eq_cons_iff.mp hback
  obtain ⟨before, tail, rfl, rfl, htail⟩ := List.filter_eq_append_iff.mp hlog
  obtain ⟨skipped, after, rfl, hskipped, ha, -⟩ := List.filter_eq_cons_iff.mp htail
  refine ⟨before ++ skipped, a, after, by rw [List.append_assoc], ?_, rfl, by simpa using ha⟩
  have hnone : skipped.filter (·.verdict ≠ .suppress) = [] :=
    List.filter_eq_nil_iff.mpr hskipped
  rw [times, List.filter_append, hnone, List.append_nil, ← hfront]

theorem exists_of_timesOf {app : Text} {pre post : List ℤ} {x : ℤ}
    (h : timesOf app log = pre ++ x :: post) :
    ∃ before a after, log = before ++ a :: after ∧ timesOf app before = pre ∧ a.now = x ∧
      a.verdict ≠ .suppress ∧ a.app = app := by
  obtain ⟨front, a, back, hlog, hfront, hnow, ha⟩ := exists_of_times h
  obtain ⟨before, tail, rfl, rfl, htail⟩ := List.filter_eq_append_iff.mp hlog
  obtain ⟨skipped, after, rfl, hskipped, happ, -⟩ := List.filter_eq_cons_iff.mp htail
  refine ⟨before ++ skipped, a, after, by rw [List.append_assoc], ?_, hnow, ha,
    by simpa using happ⟩
  have hnone : skipped.filter (·.app = app) = [] := List.filter_eq_nil_iff.mpr hskipped
  rw [timesOf, List.filter_append, hnone, List.append_nil, hfront]

theorem Lawful.inGlobal_le (h : k.Lawful log) (hglobal : 1 ≤ k.maxGlobal.toInt)
    (hsorted : (times log).Pairwise (· ≤ ·)) (t : ℤ) :
    (k.inGlobal log t : ℤ) ≤ k.maxGlobal.toInt := by
  have hspaced : Window.Spaced k.globalWindowSeconds.toInt k.maxGlobal.toInt.toNat
      (times log) := by
    intro pre x post hsplit
    obtain ⟨before, a, after, hlog, rfl, rfl, ha⟩ := exists_of_times hsplit
    have hbelow := (h.below hlog ha).1
    rw [inGlobal] at hbelow
    omega
  have hle := Window.count_le hsorted hspaced t
  rw [inGlobal]
  omega

theorem Lawful.inApp_le (h : k.Lawful log) (happ : 1 ≤ k.maxPerApp.toInt)
    (hsorted : (times log).Pairwise (· ≤ ·)) (app : Text) (t : ℤ) :
    (k.inApp log app t : ℤ) ≤ k.maxPerApp.toInt := by
  have hspaced : Window.Spaced k.windowSeconds.toInt k.maxPerApp.toInt.toNat
      (timesOf app log) := by
    intro pre x post hsplit
    obtain ⟨before, a, after, hlog, rfl, rfl, ha, rfl⟩ := exists_of_timesOf hsplit
    have hbelow := (h.below hlog ha).2
    rw [inApp] at hbelow
    omega
  have hle := Window.count_le (hsorted.sublist (timesOf_sublist app log)) hspaced t
  rw [inApp]
  omega

/-- When a call is suppressed, and when it is the last that is shown. -/
theorem Lawful.verdict_iff (h : k.Lawful log) {pre post : List Answer} {a : Answer}
    (hlog : log = pre ++ a :: post) :
    (a.verdict = .suppress ↔ k.maxGlobal.toInt ≤ k.inGlobal pre a.now ∨
      k.maxPerApp.toInt ≤ k.inApp pre a.app a.now) ∧
    (a.verdict = .repeated ↔ a.verdict ≠ .suppress ∧
      (k.inApp pre a.app a.now + 1 : ℤ) = k.maxPerApp.toInt) := by
  rw [h pre a post hlog, ideal]
  split_ifs with hfull hreach
  · exact ⟨⟨fun _ => hfull, fun _ => rfl⟩, by simp⟩
  · exact ⟨⟨fun hbad => hbad.elim, fun hbad => absurd hbad hfull⟩, by simp [hreach]⟩
  · exact ⟨⟨fun hbad => hbad.elim, fun hbad => absurd hbad hfull⟩, by simp [hreach]⟩

end Limits

example : ((RateLimiter.new { }).answers [⟨ofString "a", 0⟩, ⟨ofString "a", 1⟩, ⟨ofString "a", 1⟩,
    ⟨ofString "a", 2⟩, ⟨ofString "a", 600⟩]).map Answer.verdict =
    [.shown, .shown, .repeated, .suppress, .repeated] := by decide

end Crash

end SingularityShell
