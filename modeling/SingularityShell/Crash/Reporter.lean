import SingularityShell.Crash.Report
import SingularityShell.Lib.Transition
import Mathlib.Data.List.Nodup

/-!
# `Reporter`: one crash is processed once

Several sources may report one crash. A report of the launcher, which knows least, waits for
`MERGE_DELAY_MS`; a report of another source that comes in the meantime takes its place. What has
been processed is remembered under the key of the report, and the key is made of the process id and
the base name of the executable, which the sources do not always agree on.

A timeout of the main loop is a source that is there until it fires or is removed, so the model
keeps the sources there are; any of them may fire at any time.

## Main definitions

* `Crash.Reporter`, `Crash.Reporter.step`
* `Crash.Reporter.Recognized` — a report of a crash that was processed is known by its key
* `Crash.Reporter.Once` — what that is for

## Main results

* `Crash.Reporter.run_once` — one crash is processed once in every run of such reports
* `Crash.Reporter.not_once_of_names` — the sources give the executable different names
-/

namespace SingularityShell

namespace Crash

open Ascii

/-- The fields of `Reporter` that `on_crashed` and `process` use. -/
structure Reporter where
  enabled : Bool
  /-- The keys of `handled`. -/
  handled : List Text
  pendingLauncher : ℤ → Option Report
  pendingTimers : ℤ → Option ℕ
  /-- The timeout sources there are, with the report their callback holds. -/
  timers : List (ℕ × Report)
  /-- The id of the next source. -/
  nextTimer : ℕ
  /-- The reports that have passed the check of `process`. -/
  processed : List Report

namespace Reporter

/-- The reporter after `start`. -/
def start : Reporter where
  enabled := true
  handled := []
  pendingLauncher _ := none
  pendingTimers _ := none
  timers := []
  nextTimer := 1
  processed := []

variable (s : Reporter)

/-- `process`, up to its first `yield`. -/
def process (r : Report) : Reporter :=
  if r.key ∈ s.handled then s
  else { s with handled := r.key :: s.handled, processed := s.processed ++ [r] }

/-- `if (report.app_id == "") report.app_id = launcher.app_id`. -/
def inherit (r launcher : Report) : Report :=
  if r.appId = [] then { r with appId := launcher.appId } else r

/-- `on_crashed`, for a report of the launcher that is not handled. -/
def hold (r : Report) : Reporter :=
  { s with
    pendingLauncher := Function.update s.pendingLauncher r.pid (some r)
    pendingTimers := Function.update s.pendingTimers r.pid (some s.nextTimer)
    timers := s.timers ++ [(s.nextTimer, r)]
    nextTimer := s.nextTimer + 1 }

/-- The part of `on_crashed` that takes a waiting report of the launcher away. -/
def forget (pid : ℤ) : Reporter :=
  { s with
    pendingLauncher := Function.update s.pendingLauncher pid none
    timers := s.timers.filter fun t => some t.1 ≠ s.pendingTimers pid
    pendingTimers := Function.update s.pendingTimers pid none }

/-- `on_crashed`. -/
def onCrashed (r : Report) : Reporter :=
  if s.enabled = false ∨ r.key ∈ s.handled then s
  else if r.source = .launcher then s.hold r
  else
    match s.pendingLauncher r.pid with
    | some launcher => (s.forget r.pid).process (inherit r launcher)
    | none => s.process r

/-- The callback of the timeout, for the report it holds. -/
def onTimeout (r : Report) : Reporter :=
  let s := { s with pendingTimers := Function.update s.pendingTimers r.pid none }
  match s.pendingLauncher r.pid with
  | none => s
  | some held =>
    { s with pendingLauncher := Function.update s.pendingLauncher r.pid none }.process held

end Reporter

/-- What the reporter reacts to: a report, and a timeout source that fires. -/
inductive Signal
  | crashed (r : Report)
  | timeout (id : ℕ)

namespace Reporter

/-- One event. A source that is not there does not fire. -/
def step (s : Reporter) : Signal → Reporter
  | .crashed r => s.onCrashed r
  | .timeout id =>
    match s.timers.find? fun t => t.1 = id with
    | none => s
    | some t => { s with timers := s.timers.filter fun t => t.1 ≠ id }.onTimeout t.2

/-- A report of a crash that was processed before is known by its key. -/
def Recognized (s : Reporter) : Signal → Prop
  | .crashed r => (∃ p ∈ s.processed, p.pid = r.pid) → r.key ∈ s.handled
  | .timeout _ => True

instance (s : Reporter) (e : Signal) : Decidable (s.Recognized e) :=
  match e with
  | .crashed r =>
    inferInstanceAs (Decidable ((∃ p ∈ s.processed, p.pid = r.pid) → r.key ∈ s.handled))
  | .timeout _ => inferInstanceAs (Decidable True)

/-! ### What holds between two events -/

structure Steady (s : Reporter) : Prop where
  enabled : s.enabled = true
  /-- What is handled are the keys of what has been processed. -/
  handled : ∀ k, k ∈ s.handled ↔ ∃ p ∈ s.processed, p.key = k
  /-- No two reports of one process have been processed. -/
  once : (s.processed.map Report.pid).Nodup
  /-- A report that waits belongs to a process of which none has been processed, and there is a
  source that will wake it. -/
  waiting : ∀ pid r, s.pendingLauncher pid = some r → r.pid = pid ∧ r.source = .launcher ∧
    (∀ p ∈ s.processed, p.pid ≠ pid) ∧ ∃ t ∈ s.timers, t.2.pid = pid
  fresh : ∀ t ∈ s.timers, t.1 < s.nextTimer
  distinct : (s.timers.map Prod.fst).Nodup
  /-- `pending_timers` has ids of sources for the process. -/
  timer : ∀ pid id, s.pendingTimers pid = some id → ∀ t ∈ s.timers, t.1 = id → t.2.pid = pid
  bound : ∀ pid id, s.pendingTimers pid = some id → id < s.nextTimer

variable {s : Reporter} {r : Report}

theorem steady_start : start.Steady where
  enabled := rfl
  handled k := by simp [start]
  once := List.nodup_nil
  waiting pid r h := by cases h
  fresh t h := absurd h List.not_mem_nil
  distinct := List.nodup_nil
  timer pid id h := by cases h
  bound pid id h := by cases h

/-- A process of which no report has been processed has no key that is handled. -/
theorem Steady.key_notMem (h : s.Steady) (hr : ∀ p ∈ s.processed, p.pid ≠ r.pid) :
    r.key ∉ s.handled := by
  intro hk
  obtain ⟨p, hp, he⟩ := (h.handled r.key).mp hk
  exact hr p hp (Report.pid_of_key he)

theorem process_eq (hk : r.key ∉ s.handled) :
    s.process r = { s with handled := r.key :: s.handled, processed := s.processed ++ [r] } :=
  if_neg hk

/-- A report of a process of which none has been processed and none waits. -/
theorem Steady.process (h : s.Steady) (hr : ∀ p ∈ s.processed, p.pid ≠ r.pid)
    (hw : s.pendingLauncher r.pid = none) : (s.process r).Steady := by
  rw [process_eq (h.key_notMem hr)]
  refine ⟨h.enabled, fun k => ?_, ?_, fun pid q hq => ?_, h.fresh, h.distinct, h.timer, h.bound⟩
  · rw [List.mem_cons, h.handled]
    constructor
    · rintro (rfl | ⟨p, hp, rfl⟩)
      · exact ⟨r, List.mem_append_right _ (by simp), rfl⟩
      · exact ⟨p, List.mem_append_left _ hp, rfl⟩
    · rintro ⟨p, hp, rfl⟩
      rcases List.mem_append.mp hp with hp | hp
      · exact Or.inr ⟨p, hp, rfl⟩
      · rw [List.mem_singleton.mp hp]
        exact Or.inl rfl
  · rw [List.map_append, List.map_singleton]
    refine h.once.append (List.nodup_singleton _) ?_
    simp only [List.disjoint_singleton, List.mem_map, not_exists, not_and]
    exact fun p hp => hr p hp
  · obtain ⟨hpid, hsrc, hproc, hlive⟩ := h.waiting pid q hq
    refine ⟨hpid, hsrc, fun p hp => ?_, hlive⟩
    rcases List.mem_append.mp hp with hp | hp
    · exact hproc p hp
    · rw [List.mem_singleton.mp hp]
      rintro rfl
      rw [hw] at hq
      cases hq

theorem pendingLauncher_hold (s : Reporter) (r : Report) (pid : ℤ) :
    (s.hold r).pendingLauncher pid = if pid = r.pid then some r else s.pendingLauncher pid :=
  Function.update_apply _ _ _ _

theorem pendingTimers_hold (s : Reporter) (r : Report) (pid : ℤ) :
    (s.hold r).pendingTimers pid = if pid = r.pid then some s.nextTimer else s.pendingTimers pid :=
  Function.update_apply _ _ _ _

theorem mem_timers_hold {t : ℕ × Report} :
    t ∈ (s.hold r).timers ↔ t ∈ s.timers ∨ t = (s.nextTimer, r) := by
  simp [Reporter.hold]

theorem Steady.hold (h : s.Steady) (hsrc : r.source = .launcher)
    (hr : ∀ p ∈ s.processed, p.pid ≠ r.pid) : (s.hold r).Steady := by
  refine ⟨h.enabled, h.handled, h.once, fun pid q hq => ?_, fun t ht => ?_, ?_,
    fun pid id hid t ht hti => ?_, fun pid id hid => ?_⟩
  · rw [pendingLauncher_hold] at hq
    split_ifs at hq with hpid
    · obtain rfl : r = q := Option.some_inj.mp hq
      exact ⟨hpid.symm, hsrc, hpid ▸ hr, (s.nextTimer, r), mem_timers_hold.mpr (Or.inr rfl),
        hpid.symm⟩
    · obtain ⟨h1, h2, h3, t, ht, h4⟩ := h.waiting pid q hq
      exact ⟨h1, h2, h3, t, mem_timers_hold.mpr (Or.inl ht), h4⟩
  · change t.1 < s.nextTimer + 1
    rcases mem_timers_hold.mp ht with ht | rfl
    · exact Nat.lt_succ_of_lt (h.fresh t ht)
    · exact Nat.lt_succ_self _
  · change (List.map Prod.fst (s.timers ++ [(s.nextTimer, r)])).Nodup
    rw [List.map_append, List.map_singleton]
    refine h.distinct.append (List.nodup_singleton _) ?_
    simp only [List.disjoint_singleton, List.mem_map, not_exists, not_and]
    exact fun t ht he => absurd (h.fresh t ht) (by omega)
  · -- The new source is the only one with its id.
    rw [pendingTimers_hold] at hid
    rcases mem_timers_hold.mp ht with ht | rfl
    · split_ifs at hid with hpid
      · have := h.fresh t ht
        have := Option.some_inj.mp hid
        omega
      · exact h.timer pid id hid t ht hti
    · split_ifs at hid with hpid
      · exact hpid.symm
      · have hlt := h.bound pid id hid
        dsimp only at hti
        omega
  · change id < s.nextTimer + 1
    rw [pendingTimers_hold] at hid
    split_ifs at hid with hpid
    · have := Option.some_inj.mp hid
      omega
    · have := h.bound pid id hid
      omega

/-- Some sources are removed, none of which is needed to wake a report that still waits. -/
theorem Steady.drop (h : s.Steady) (pid : ℤ) {p : ℕ × Report → Bool}
    (hp : ∀ t ∈ s.timers, p t = false → t.2.pid = pid) (pendingTimers : ℤ → Option ℕ)
    (htimers : ∀ q id, pendingTimers q = some id → s.pendingTimers q = some id) :
    Steady { s with
      pendingLauncher := Function.update s.pendingLauncher pid none
      timers := s.timers.filter p
      pendingTimers := pendingTimers } := by
  refine ⟨h.enabled, h.handled, h.once, fun q r hr => ?_,
    fun t ht => h.fresh t (List.mem_filter.mp ht).1, ?_,
    fun q id hid t ht => h.timer q id (htimers q id hid) t (List.mem_filter.mp ht).1,
    fun q id hid => h.bound q id (htimers q id hid)⟩
  · by_cases hq : q = pid
    · subst hq
      cases (Function.update_self _ _ _).symm.trans hr
    · obtain ⟨h1, h2, h3, t, ht, h4⟩ :=
        h.waiting q r ((Function.update_of_ne hq _ _).symm.trans hr)
      refine ⟨h1, h2, h3, t, List.mem_filter.mpr ⟨ht, ?_⟩, h4⟩
      by_contra hc
      exact hq (h4.symm.trans (hp t ht (by simpa using hc)))
  · exact h.distinct.sublist (List.filter_sublist.map _)

theorem update_none_le {f : ℤ → Option ℕ} {pid q : ℤ} {id : ℕ}
    (h : Function.update f pid none q = some id) : f q = some id := by
  rw [Function.update_apply] at h
  split_ifs at h
  exact h

theorem Steady.forget (h : s.Steady) (pid : ℤ) : (s.forget pid).Steady := by
  refine h.drop pid (fun t ht hp => ?_) _ fun q id => update_none_le
  exact h.timer pid t.1 (by simpa using hp : some t.1 = s.pendingTimers pid).symm t ht rfl

theorem inherit_key (r launcher : Report) : (inherit r launcher).pid = r.pid ∧
    (inherit r launcher).source = r.source ∧ (inherit r launcher).executable = r.executable := by
  unfold inherit
  split_ifs <;> exact ⟨rfl, rfl, rfl⟩

/-- A report that is not the launcher's, of a process of which none has been processed. -/
theorem onCrashed_eq (h : s.Steady) (hsrc : r.source ≠ .launcher)
    (hr : ∀ p ∈ s.processed, p.pid ≠ r.pid) :
    ∃ (q : Report) (s' : Reporter), s.onCrashed r = s'.process q ∧ s'.Steady ∧
      s'.processed = s.processed ∧ s'.pendingLauncher r.pid = none ∧
      q.pid = r.pid ∧ q.source = r.source ∧ q.executable = r.executable := by
  have hcond : ¬(s.enabled = false ∨ r.key ∈ s.handled) := by
    simp [h.enabled, h.key_notMem hr]
  unfold onCrashed
  rw [if_neg hcond, if_neg hsrc]
  split
  · next launcher _ =>
    obtain ⟨h1, h2, h3⟩ := inherit_key r launcher
    exact ⟨inherit r launcher, s.forget r.pid, rfl, h.forget r.pid, rfl,
      Function.update_self _ _ _, h1, h2, h3⟩
  · next hnone => exact ⟨r, s, rfl, h, rfl, hnone, rfl, rfl, rfl⟩

theorem Steady.onCrashed (h : s.Steady) (hg : s.Recognized (.crashed r)) :
    (s.onCrashed r).Steady := by
  by_cases hk : r.key ∈ s.handled
  · rw [Reporter.onCrashed, if_pos (Or.inr hk)]
    exact h
  have hr : ∀ p ∈ s.processed, p.pid ≠ r.pid := fun p hp he => hk (hg ⟨p, hp, he⟩)
  by_cases hsrc : r.source = .launcher
  · rw [Reporter.onCrashed, if_neg (by simp [h.enabled, hk]), if_pos hsrc]
    exact h.hold hsrc hr
  · obtain ⟨q, s', he, hs', hproc, hnone, hpid, -⟩ := onCrashed_eq h hsrc hr
    rw [he]
    exact hs'.process (by rwa [hproc, hpid]) (by rwa [hpid])

/-- A source fires: the report that waits is processed, or nothing happens. -/
theorem timeout_eq (h : s.Steady) (id : ℕ) : s.step (.timeout id) = s ∨
    ∃ t ∈ s.timers, t.1 = id ∧ ∃ s' : Reporter, s'.Steady ∧ s'.processed = s.processed ∧
      s'.pendingLauncher = Function.update s.pendingLauncher t.2.pid none ∧
      (s.pendingLauncher t.2.pid = none ∧ s.step (.timeout id) = s' ∨
        ∃ held, s.pendingLauncher t.2.pid = some held ∧
          s.step (.timeout id) = s'.process held) := by
  unfold step
  dsimp only
  cases hf : s.timers.find? fun t => t.1 = id with
  | none => exact Or.inl rfl
  | some t =>
    have ht := List.mem_of_find?_eq_some hf
    have hid : t.1 = id := by simpa using List.find?_some hf
    have hdrop : ∀ t' ∈ s.timers, decide (t'.1 ≠ id) = false → t'.2.pid = t.2.pid := by
      intro t' ht' he
      have he : t'.1 = t.1 := (by simpa using he : t'.1 = id).trans hid.symm
      rw [List.inj_on_of_nodup_map h.distinct ht' ht he]
    have hs' := h.drop t.2.pid hdrop (Function.update s.pendingTimers t.2.pid none)
      fun q id => update_none_le
    refine Or.inr ⟨t, ht, hid, _, hs', rfl, rfl, ?_⟩
    unfold onTimeout
    dsimp only
    cases hp : s.pendingLauncher t.2.pid with
    | none =>
      have hsame : Function.update s.pendingLauncher t.2.pid none = s.pendingLauncher := by
        rw [← hp, Function.update_eq_self]
      refine Or.inl ⟨rfl, ?_⟩
      rw [hsame]
    | some held => exact Or.inr ⟨held, rfl, rfl⟩

theorem steady_step (s : Reporter) (e : Signal) (h : s.Steady) (hg : s.Recognized e) :
    (s.step e).Steady := by
  cases e with
  | crashed r => exact h.onCrashed hg
  | timeout id =>
    rcases timeout_eq h id with he | ⟨t, -, -, s', hs', hproc, hpend, ⟨-, he⟩ | ⟨held, hheld, he⟩⟩
    · rw [he]
      exact h
    · rw [he]
      exact hs'
    · obtain ⟨hpid, -, hnew, -⟩ := h.waiting _ _ hheld
      rw [he]
      refine hs'.process (by rwa [hproc, hpid]) ?_
      rw [hpend, hpid, Function.update_self]

/-! ### No report is lost -/

/-- A report of the process waits, or one has been processed. -/
def Accounted (s : Reporter) (pid : ℤ) : Prop :=
  s.pendingLauncher pid ≠ none ∨ ∃ p ∈ s.processed, p.pid = pid

theorem mem_processed_process (hr : r.key ∉ s.handled) : r ∈ (s.process r).processed := by
  rw [process_eq hr]
  exact List.mem_append_right _ (by simp)

theorem processed_subset_process (s : Reporter) (r : Report) :
    ∀ p ∈ s.processed, p ∈ (s.process r).processed := by
  intro p hp
  unfold process
  split_ifs
  · exact hp
  · exact List.mem_append_left _ hp

theorem pendingLauncher_process (s : Reporter) (r : Report) :
    (s.process r).pendingLauncher = s.pendingLauncher := by
  unfold process
  split_ifs <;> rfl

theorem accounted_of_eq {s' : Reporter} {pid : ℤ} (h : s.Accounted pid)
    (hpend : s'.pendingLauncher pid = s.pendingLauncher pid)
    (hproc : ∀ p ∈ s.processed, p ∈ s'.processed) : s'.Accounted pid := by
  rcases h with h | ⟨p, hp, he⟩
  · exact Or.inl (hpend ▸ h)
  · exact Or.inr ⟨p, hproc p hp, he⟩

/-- A report that arrives waits or is processed, or one of the same process has been. -/
theorem Steady.accounted_crashed (h : s.Steady) (hg : s.Recognized (.crashed r)) {pid : ℤ}
    (hpid : pid = r.pid ∨ s.Accounted pid) : (s.onCrashed r).Accounted pid := by
  by_cases hk : r.key ∈ s.handled
  · rw [Reporter.onCrashed, if_pos (Or.inr hk)]
    obtain ⟨p, hp, he⟩ := (h.handled r.key).mp hk
    exact hpid.elim (fun he' => Or.inr ⟨p, hp, he' ▸ Report.pid_of_key he⟩) id
  have hr : ∀ p ∈ s.processed, p.pid ≠ r.pid := fun p hp he => hk (hg ⟨p, hp, he⟩)
  by_cases hsrc : r.source = .launcher
  · rw [Reporter.onCrashed, if_neg (by simp [h.enabled, hk]), if_pos hsrc]
    by_cases he : pid = r.pid
    · refine Or.inl ?_
      rw [pendingLauncher_hold, if_pos he]
      simp
    · refine accounted_of_eq (hpid.resolve_left he) ?_ fun p hp => hp
      rw [pendingLauncher_hold, if_neg he]
  · by_cases he : pid = r.pid
    · obtain ⟨q, s', hs, hs', hproc, -, hq, -⟩ := onCrashed_eq h hsrc hr
      rw [hs, he]
      exact Or.inr ⟨q, mem_processed_process (hs'.key_notMem (by rwa [hproc, hq])), hq⟩
    · have hold := hpid.resolve_left he
      rw [Reporter.onCrashed, if_neg (by simp [h.enabled, hk]), if_neg hsrc]
      split
      · refine accounted_of_eq hold ?_ fun p hp => processed_subset_process _ _ p hp
        rw [pendingLauncher_process]
        exact Function.update_of_ne he _ _
      · refine accounted_of_eq hold ?_ fun p hp => processed_subset_process _ _ p hp
        rw [pendingLauncher_process]

theorem Steady.accounted_timeout (h : s.Steady) (id : ℕ) {pid : ℤ} (hpid : s.Accounted pid) :
    (s.step (.timeout id)).Accounted pid := by
  rcases timeout_eq h id with he | ⟨t, -, -, s', hs', hproc, hpend, hcase⟩
  · rw [he]
    exact hpid
  have hprocessed : ∀ p ∈ s.processed, p ∈ s'.processed := fun p hp => hproc ▸ hp
  by_cases hne : pid = t.2.pid
  · subst hne
    rcases hcase with ⟨hnone, he⟩ | ⟨held, hheld, he⟩
    · rw [he]
      rcases hpid with hpid | ⟨p, hp, hpp⟩
      · exact absurd hnone hpid
      · exact Or.inr ⟨p, hprocessed p hp, hpp⟩
    · obtain ⟨hheld', -, hnew, -⟩ := h.waiting _ _ hheld
      rw [he]
      exact Or.inr ⟨held, mem_processed_process (hs'.key_notMem (by rwa [hproc, hheld'])), hheld'⟩
  · have hsame : s'.pendingLauncher pid = s.pendingLauncher pid := by
      rw [hpend, Function.update_of_ne hne]
    rcases hcase with ⟨-, he⟩ | ⟨held, -, he⟩
    · rw [he]
      exact accounted_of_eq hpid hsame hprocessed
    · rw [he]
      refine accounted_of_eq hpid ((congrFun (pendingLauncher_process s' held) pid).trans hsame)
        fun p hp => processed_subset_process _ _ p (hprocessed p hp)

theorem Steady.accounted_run (h : s.Steady) {es : List Signal}
    (hg : Transition.Guarded step Recognized s es) {pid : ℤ}
    (hpid : s.Accounted pid ∨ ∃ r, .crashed r ∈ es ∧ r.pid = pid) :
    (Transition.run step s es).Accounted pid := by
  induction es generalizing s with
  | nil => exact hpid.resolve_right (by simp)
  | cons e es ih =>
    refine ih (steady_step s e h hg.1) hg.2 ?_
    cases e with
    | timeout id =>
      refine hpid.imp (h.accounted_timeout id) ?_
      rintro ⟨r, hr, hrp⟩
      exact ⟨r, (List.mem_cons.mp hr).resolve_left (by simp), hrp⟩
    | crashed q =>
      rcases hpid with hpid | ⟨r, hr, hrp⟩
      · exact Or.inl (h.accounted_crashed hg.1 (Or.inr hpid))
      · rcases List.mem_cons.mp hr with he | hr
        · obtain rfl : r = q := Signal.crashed.inj he
          exact Or.inl (h.accounted_crashed hg.1 (Or.inl hrp.symm))
        · exact Or.inr ⟨r, hr, hrp⟩

/-! ### Once -/

/-- The reports of a process that have passed the check of `process`. -/
def passed (s : Reporter) (pid : ℤ) : List Report := s.processed.filter fun p => p.pid = pid

/-- One crash is processed once, in the state after the given events. -/
structure Once (s : Reporter) (es : List Signal) : Prop where
  /-- No process passes the check twice. -/
  atMost : ∀ pid, (s.passed pid).length ≤ 1
  /-- Once no source for it is left, every process of which a report has arrived has passed. -/
  done : ∀ r, .crashed r ∈ es → (∀ t ∈ s.timers, t.2.pid ≠ r.pid) → (s.passed r.pid).length = 1
  /-- While a report of the launcher waits, none of the process has passed. -/
  waits : ∀ pid r, s.pendingLauncher pid = some r → s.passed pid = []
  /-- The report of another source that arrives first is the one that passes. -/
  first : ∀ r, r.source ≠ .launcher → s.passed r.pid = [] → ∃ q, q.source = r.source ∧
    q.pid = r.pid ∧ q.executable = r.executable ∧ (s.step (.crashed r)).passed r.pid = [q]

theorem passed_eq_nil {pid : ℤ} : s.passed pid = [] ↔ ∀ p ∈ s.processed, p.pid ≠ pid := by
  simp [passed]

theorem Steady.length_passed (h : s.Steady) (pid : ℤ) : (s.passed pid).length ≤ 1 := by
  have hnodup : ((s.passed pid).map Report.pid).Nodup := h.once.sublist (List.filter_sublist.map _)
  have hall : ∀ p ∈ s.passed pid, p.pid = pid := fun p hp => by
    simpa using (List.mem_filter.mp hp).2
  match hp : s.passed pid with
  | [] => simp
  | [p] => simp
  | p :: q :: l =>
    rw [hp] at hnodup hall
    simp [hall p (by simp), hall q (by simp)] at hnodup

/-- **One crash is processed once**, in every run in which the reports of a crash that was processed
are known by their key. -/
theorem run_once (es : List Signal) (hg : Transition.Guarded step Recognized start es) :
    (Transition.run step start es).Once es := by
  have h : (Transition.run step start es).Steady := hg.invariant steady_step steady_start
  refine ⟨h.length_passed, fun r hr hnone => ?_, fun pid r hr => ?_, fun r hsrc hnone => ?_⟩
  · rcases steady_start.accounted_run hg (Or.inr ⟨r, hr, rfl⟩) with hwait | ⟨p, hp, hpid⟩
    · obtain ⟨q, hq⟩ := Option.ne_none_iff_exists'.mp hwait
      obtain ⟨-, -, -, t, ht, hpid⟩ := h.waiting _ _ hq
      exact absurd hpid (hnone t ht)
    · have hmem : p ∈ (Transition.run step start es).passed r.pid :=
        List.mem_filter.mpr ⟨hp, decide_eq_true hpid⟩
      have hpos := List.length_pos_of_mem hmem
      have hmost := h.length_passed r.pid
      omega
  · exact passed_eq_nil.mpr (h.waiting pid r hr).2.2.1
  · have hr := passed_eq_nil.mp hnone
    obtain ⟨q, s', hs, hs', hproc, -, hpid, hsrc', hexe⟩ := onCrashed_eq h hsrc hr
    refine ⟨q, hsrc', hpid, hexe, ?_⟩
    change ((Transition.run step start es).onCrashed r).passed r.pid = [q]
    rw [hs, process_eq (hs'.key_notMem (by rwa [hproc, hpid]))]
    unfold passed at hnone ⊢
    rw [hproc, List.filter_append, hnone]
    simp [hpid]

/-- A report of the handler takes the place of one that waits, and what comes afterwards is known.
-/
theorem run_once_merge : Once (Transition.run step start
    [.crashed { pid := 7, executable := ofString "vim", appId := ofString "org.vim" },
      .crashed { source := .handler, pid := 7, executable := ofString "/usr/bin/vim" }, .timeout 1,
      .crashed { source := .coredumpctl, pid := 7, executable := ofString "/usr/bin/vim" }])
    [.crashed { pid := 7, executable := ofString "vim", appId := ofString "org.vim" },
      .crashed { source := .handler, pid := 7, executable := ofString "/usr/bin/vim" }, .timeout 1,
      .crashed { source := .coredumpctl, pid := 7, executable := ofString "/usr/bin/vim" }] :=
  run_once _ (by decide)

/-- The process and the source of every report that arrives. -/
def arrivals (es : List Signal) : List (ℤ × SourceKind) :=
  es.filterMap fun
    | .crashed r => some (r.pid, r.source)
    | .timeout _ => none

/-- The handler names the program that ran, the launcher the command it was started with. -/
theorem not_once_of_names :
    ¬∀ es, (arrivals es).Nodup → (Transition.run step start es).Once es := by
  intro h
  have hmost :=
    (h [.crashed { source := .handler, pid := 7, executable := ofString "/usr/lib/firefox-bin" },
      .crashed { pid := 7, executable := ofString "firefox" }, .timeout 1] (by decide)).atMost 7
  exact absurd hmost (by decide)

end Reporter

end Crash

end SingularityShell
