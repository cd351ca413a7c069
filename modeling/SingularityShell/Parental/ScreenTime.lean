import SingularityShell.Lib.Ascii
import SingularityShell.Lib.Machine
import SingularityShell.Lib.Timeline
import SingularityShell.Lib.Transition

/-!
# Screen time

The tracker of `core/parental/screen_time_tracker.vala` adds the time at which an application was
focused to a store. It counts whole seconds, from a time of reference that moves whenever it counts.

## Main definitions

* `Parental.ScreenTimeTracker`, `Parental.ScreenTimeTracker.account`
* `Parental.Watch`, `Parental.step` — the tracker, and when calls were made and focus changed
* `Parental.KeepsTime` — the seconds add up, and those who get them were focused
* `Parental.Times` — the times of the calls and of the changes of focus
* `Parental.Accurate` — the times at which a call may come

## Main results

* `Parental.keepsTime_iff` — the runs that keep time
-/

namespace SingularityShell

namespace Parental

open Ascii Machine Timeline Transition

/-! ### The tracker -/

/-- `BreakReminder` -/
structure BreakReminder where
  lastTick : ℤ := -1
  continuous : ℤ := 0
  wasActive : Bool := false

/-- `advance`, and whether it returns true. -/
def BreakReminder.advance (b : BreakReminder) (now : ℤ) (active : Bool) (intervalSeconds : ℤ) :
    BreakReminder × Bool :=
  let elapsed := if b.lastTick < 0 then 0 else (now - b.lastTick).tdiv 1000000
  let continuous :=
    if !active || !b.wasActive || elapsed < 0 || elapsed > 60 then 0 else b.continuous + elapsed
  if !active || intervalSeconds ≤ 0 || continuous < intervalSeconds then
    (⟨now, continuous, active⟩, false)
  else (⟨now, 0, active⟩, true)

/-- What a call of `account` finds. -/
structure Call where
  /-- `get_monotonic_time` -/
  now : ℤ
  recording : Bool
  /-- `break-reminder-enabled`, where the schema has it. -/
  remind : Bool
  /-- `break-reminder-minutes` -/
  breakMinutes : ℤ
  /-- `session_locked` -/
  locked : Bool
  idleSeconds : ℕ
  /-- `day_key` of the local time. -/
  day : Text

/-- A call of `store.add`, and when it was made. -/
structure Addition where
  day : Text
  app : Text
  seconds : ℤ
  time : ℤ

/-- `ScreenTimeTracker` -/
structure ScreenTimeTracker where
  currentApp : Option Text
  lastTick : ℤ
  ticks : UInt32 := 0
  breaks : BreakReminder := {}
  breakIdle : Bool := false
  /-- The minutes that the reminders of a break have told. -/
  reminders : List ℤ := []
  /-- What was added to the store, the latest first. -/
  additions : List Addition := []

namespace ScreenTimeTracker

variable (c : Call) (t : ScreenTimeTracker)

/-- The reminder of a break in `account`. -/
def remind : ScreenTimeTracker :=
  if c.remind then
    let interval := wrap32 (c.breakMinutes * 60)
    let advanced := t.breaks.advance c.now (!t.breakIdle && !c.locked) interval
    { t with
      breaks := advanced.1
      reminders := if advanced.2 then interval.tdiv 60 :: t.reminders else t.reminders }
  else t

/-- The end of `account`. -/
def credit (elapsed : ℤ) : ScreenTimeTracker :=
  match t.currentApp with
  | none => t
  | some app =>
    if !c.recording then t
    else if c.idleSeconds > 0 || c.locked then t
    else { t with additions := ⟨c.day, app, min elapsed 60, c.now⟩ :: t.additions }

/-- `account` -/
def account : ScreenTimeTracker :=
  let elapsed := (c.now - t.lastTick).tdiv 1000000
  if elapsed ≤ 0 then t
  else
    let t := { t with lastTick := c.now }
    if !c.remind && (!c.recording || t.currentApp.isNone) then t
    else (t.remind c).credit c elapsed

end ScreenTimeTracker

/-- What happens to the tracker. -/
inductive Event
  /-- The timer. -/
  | tick (c : Call)
  /-- `app_focused`, with the application that `resolve` finds. -/
  | focused (c : Call) (app : Option Text)
  /-- `today_seconds` -/
  | today (c : Call)
  /-- `session_ending` -/
  | ending (c : Call)
  /-- `on_break_idle`, and with false `configure_breaks`. -/
  | breakIdle (idle : Bool)

/-- The call of `account` that is made. -/
def Event.call : Event → Option Call
  | tick c | focused c _ | today c | ending c => some c
  | breakIdle _ => none

def ScreenTimeTracker.handle (t : ScreenTimeTracker) : Event → ScreenTimeTracker
  | .tick c => { t.account c with ticks := (t.account c).ticks + 1 }
  | .focused c app => { t.account c with currentApp := app }
  | .today c | .ending c => t.account c
  | .breakIdle idle => { t with breakIdle := idle, breaks := {} }

/-! ### What is watched -/

/-- The tracker, when it was started and last called, and what was focused. -/
structure Watch where
  tracker : ScreenTimeTracker
  started : ℤ
  called : ℤ
  focus : List (ℤ × Option Text)

/-- `start`, with an application that is focused. -/
def start (now : ℤ) (app : Text) : Watch where
  tracker := { currentApp := some app, lastTick := now }
  started := now
  called := now
  focus := [(now, some app)]

/-- The applications that were focused, with the one that now is. -/
def refocus (focus : List (ℤ × Option Text)) : Event → List (ℤ × Option Text)
  | .focused c app => (c.now, app) :: focus
  | _ => focus

def step (w : Watch) (e : Event) : Watch where
  tracker := w.tracker.handle e
  started := w.started
  called := (e.call.map (·.now)).getD w.called
  focus := refocus w.focus e

/-- The seconds that were added. -/
def Watch.added (w : Watch) : ℤ := (w.tracker.additions.map (·.seconds)).sum

/-- The time that has passed and the seconds differ by less than one second, and an application that
got seconds was focused for as long before they were added. -/
structure KeepsTime (w : Watch) : Prop where
  total : |w.called - w.started - 1000000 * w.added| < 1000000
  focused : ∀ a ∈ w.tracker.additions, ∀ u, a.time - 1000000 * a.seconds ≤ u → u < a.time →
    valueAt w.focus u = some (some a.app)

/-- The calls that are considered: time does not go back, and no more than a minute passes between
them. Times are recorded, an application is focused, and the session is neither idle nor locked. -/
def Steady (w : Watch) (e : Event) : Prop :=
  (∀ c ∈ e.call, w.called ≤ c.now ∧ c.now ≤ w.called + 60000000 ∧ c.recording = true ∧
    c.idleSeconds = 0 ∧ c.locked = false) ∧
  ∀ c app, e = .focused c app → app.isSome = true

/-- The times at which calls come and the focus changes. -/
structure Times where
  /-- The start, or the last call that came a second or more after the one that was kept here before
  it. -/
  reference : ℤ
  /-- By how much the gaps between those calls exceed whole seconds. -/
  fractions : ℤ := 0
  focus : List (ℤ × Option Text)

/-- The application that is focused. -/
def Times.app (t : Times) : Option Text := t.focus.head?.bind (·.2)

def Times.step (t : Times) (e : Event) : Times :=
  let focus := refocus t.focus e
  match e.call with
  | none => { t with focus }
  | some c =>
    let gap := c.now - t.reference
    if gap < 1000000 then { t with focus }
    else { reference := c.now, fractions := t.fractions + gap % 1000000, focus }

/-- At the start an application is focused. -/
def Times.start (now : ℤ) (app : Text) : Times where
  reference := now
  focus := [(now, some app)]

/-- A call comes when the fractions of a second in the gaps so far are less than a second in all. If
a second or more has passed, another application was not focused for longer than the fraction
that is over. -/
def Accurate (t : Times) (e : Event) : Prop :=
  ∀ c ∈ e.call,
    let gap := c.now - t.reference
    t.fractions + gap % 1000000 < 1000000 ∧
    (1000000 ≤ gap → since t.app c.now t.focus - t.reference ≤ gap % 1000000)

/-! ### One call -/

variable {c : Call} {t : ScreenTimeTracker} {w : Watch} {e : Event}

/-- Less than a second is not counted, and the time of reference stays. -/
theorem account_of_lt (h : c.now - t.lastTick < 1000000) : t.account c = t := by
  have helapsed : (c.now - t.lastTick).tdiv 1000000 ≤ 0 := by
    rcases lt_or_ge (c.now - t.lastTick) 0 with hneg | hpos
    · have hback := Int.tdiv_nonneg (b := 1000000) (neg_nonneg.mpr hneg.le) (by decide)
      rw [Int.neg_tdiv] at hback
      omega
    · rw [Int.tdiv_eq_ediv_of_nonneg hpos]
      omega
  exact if_pos helapsed

theorem remind_spec : (t.remind c).currentApp = t.currentApp ∧
    (t.remind c).lastTick = t.lastTick ∧ (t.remind c).additions = t.additions := by
  rw [ScreenTimeTracker.remind]
  by_cases hremind : c.remind = true
  · rw [if_pos hremind]
    exact ⟨rfl, rfl, rfl⟩
  · rw [if_neg hremind]
    exact ⟨rfl, rfl, rfl⟩

theorem credit_spec {app : Text} {elapsed : ℤ} (happ : t.currentApp = some app)
    (hrecording : c.recording = true) (hidle : c.idleSeconds = 0) (hlocked : c.locked = false) :
    t.credit c elapsed =
      { t with additions := ⟨c.day, app, min elapsed 60, c.now⟩ :: t.additions } := by
  rw [ScreenTimeTracker.credit, happ]
  dsimp only
  rw [if_neg (by simp [hrecording]), if_neg (by simp [hidle, hlocked])]

/-- The whole seconds since the time of reference are added. -/
theorem account_spec {app : Text} (h : 1000000 ≤ c.now - t.lastTick)
    (happ : t.currentApp = some app) (hrecording : c.recording = true) (hidle : c.idleSeconds = 0)
    (hlocked : c.locked = false) :
    (t.account c).lastTick = c.now ∧ (t.account c).currentApp = some app ∧
    (t.account c).additions =
      ⟨c.day, app, min ((c.now - t.lastTick) / 1000000) 60, c.now⟩ :: t.additions := by
  have hdiv : (c.now - t.lastTick).tdiv 1000000 = (c.now - t.lastTick) / 1000000 :=
    Int.tdiv_eq_ediv_of_nonneg (by omega)
  obtain ⟨happ', htick', hadded'⟩ := remind_spec (c := c) (t := { t with lastTick := c.now })
  rw [ScreenTimeTracker.account, hdiv, if_neg (by omega)]
  dsimp only
  rw [if_neg (by simp [hrecording, happ]), credit_spec (happ'.trans happ) hrecording hidle hlocked]
  exact ⟨htick', happ'.trans happ, congrArg _ hadded'⟩

/-- Every event that calls `account` leaves what it does to the times and the additions. -/
theorem handle_of_call (h : e.call = some c) : (t.handle e).lastTick = (t.account c).lastTick ∧
    (t.handle e).additions = (t.account c).additions := by
  cases e with
  | tick d | focused d app | today d | ending d =>
    obtain rfl := Option.some_inj.mp h
    exact ⟨rfl, rfl⟩
  | breakIdle idle => exact absurd h.symm (Option.some_ne_none c)

theorem called_of_call (h : e.call = some c) : (step w e).called = c.now := by
  have hcalled : (step w e).called = (e.call.map (·.now)).getD w.called := rfl
  rw [hcalled, h]
  rfl

/-- What happens at a call is not seen before it. -/
theorem valueAt_step (h : e.call = some c) {u : ℤ} (hu : u < c.now) :
    valueAt (step w e).focus u = valueAt w.focus u := by
  cases e with
  | focused d app =>
    obtain rfl := Option.some_inj.mp h
    exact valueAt_cons_of_lt hu _ _
  | tick d | today d | ending d | breakIdle idle => rfl

/-! ### What every run keeps -/

/-- The fractions of seconds that were dropped. -/
def Watch.dropped (w : Watch) : ℤ := w.tracker.lastTick - w.started - 1000000 * w.added

/-- The times, as the tracker has them. -/
def Watch.times (w : Watch) : Times := ⟨w.tracker.lastTick, w.dropped, w.focus⟩

/-- The last call was less than a second after the time of reference. -/
structure Regular (w : Watch) : Prop where
  lastTick_le : w.tracker.lastTick ≤ w.called
  called_lt : w.called < w.tracker.lastTick + 1000000
  app : w.tracker.currentApp.isSome = true
  focused : w.times.app = w.tracker.currentApp
  focus : Until w.called w.focus
  dropped : 0 ≤ w.dropped
  times : ∀ a ∈ w.tracker.additions, a.time ≤ w.called

theorem regular_start (now : ℤ) (app : Text) : Regular (start now app) where
  lastTick_le := le_rfl
  called_lt := Int.lt_add_of_pos_right now (by decide)
  app := rfl
  focused := rfl
  focus := ⟨le_rfl, trivial⟩
  dropped := by
    change 0 ≤ now - now - 1000000 * 0
    omega
  times := fun a ha => absurd ha List.not_mem_nil

theorem keepsTime_start (now : ℤ) (app : Text) : KeepsTime (start now app) where
  total := by
    change |now - now - 1000000 * 0| < 1000000
    rw [sub_self, mul_zero, sub_self, abs_zero]
    decide
  focused := fun a ha => absurd ha List.not_mem_nil

theorem focus_step (h : Regular w) (hsteady : Steady w e) :
    Until (step w e).called (step w e).focus := by
  cases e with
  | focused d app => exact ⟨le_rfl, h.focus.mono (hsteady.1 d rfl).1⟩
  | tick d | today d | ending d => exact h.focus.mono (hsteady.1 d rfl).1
  | breakIdle idle => exact h.focus

theorem app_step (h : Regular w) (hsteady : Steady w e) :
    (step w e).tracker.currentApp.isSome = true ∧
      (step w e).times.app = (step w e).tracker.currentApp := by
  obtain ⟨app, happ⟩ := Option.isSome_iff_exists.mp h.app
  have haccount : ∀ d ∈ e.call, (w.tracker.account d).currentApp = some app := by
    intro d hd
    obtain ⟨-, -, hrecording, hidle, hlocked⟩ := hsteady.1 d hd
    rcases lt_or_ge (d.now - w.tracker.lastTick) 1000000 with hlt | hge
    · rw [account_of_lt hlt, happ]
    · exact (account_spec hge happ hrecording hidle hlocked).2.1
  cases e with
  | focused d app' => exact ⟨hsteady.2 d app' rfl, rfl⟩
  | tick d | today d | ending d =>
    change (w.tracker.account d).currentApp.isSome = true ∧
      w.times.app = (w.tracker.account d).currentApp
    rw [haccount d rfl, h.focused, happ]
    exact ⟨rfl, rfl⟩
  | breakIdle idle => exact ⟨h.app, h.focused⟩

/-- A call that comes too early adds nothing, and no other event does. -/
theorem step_of_lt (h : ∀ c ∈ e.call, c.now - w.tracker.lastTick < 1000000) :
    (step w e).tracker.lastTick = w.tracker.lastTick ∧
    (step w e).tracker.additions = w.tracker.additions := by
  cases hcall : e.call with
  | none =>
    cases e with
    | breakIdle idle => exact ⟨rfl, rfl⟩
    | tick d | focused d app | today d | ending d => exact absurd hcall (Option.some_ne_none d)
  | some c =>
    obtain ⟨htick, hadded⟩ := handle_of_call (t := w.tracker) hcall
    rw [account_of_lt (h c hcall)] at htick hadded
    exact ⟨htick, hadded⟩

/-- A call that comes later adds the whole seconds, which are never more than a minute. -/
theorem step_of_ge {app : Text} (h : Regular w) (hsteady : Steady w e) (hcall : e.call = some c)
    (happ : w.tracker.currentApp = some app) (hge : 1000000 ≤ c.now - w.tracker.lastTick) :
    (step w e).tracker.lastTick = c.now ∧ (step w e).tracker.additions =
      ⟨c.day, app, (c.now - w.tracker.lastTick) / 1000000, c.now⟩ :: w.tracker.additions ∧
    (step w e).added = (c.now - w.tracker.lastTick) / 1000000 + w.added := by
  obtain ⟨hback, hnext, hrecording, hidle, hlocked⟩ := hsteady.1 c hcall
  obtain ⟨htick, hadded⟩ := handle_of_call (t := w.tracker) hcall
  obtain ⟨htick', -, hadded'⟩ := account_spec hge happ hrecording hidle hlocked
  have hlt := h.called_lt
  have hminute : min ((c.now - w.tracker.lastTick) / 1000000) 60 =
      (c.now - w.tracker.lastTick) / 1000000 := min_eq_left (by omega)
  rw [hminute] at hadded'
  have hall := hadded.trans hadded'
  refine ⟨htick.trans htick', hall, ?_⟩
  rw [Watch.added]
  exact congrArg (fun additions => (additions.map (·.seconds)).sum) hall

theorem regular_step (h : Regular w) (hsteady : Steady w e) : Regular (step w e) := by
  obtain ⟨app, happ⟩ := Option.isSome_iff_exists.mp h.app
  have hle := h.lastTick_le
  have hlt := h.called_lt
  have hdropped := h.dropped
  rw [Watch.dropped] at hdropped
  by_cases hearly : ∀ c ∈ e.call, c.now - w.tracker.lastTick < 1000000
  · obtain ⟨htick, hadded⟩ := step_of_lt hearly
    have hcalled : w.called ≤ (step w e).called ∧
        (step w e).called < w.tracker.lastTick + 1000000 := by
      cases hcall : e.call with
      | none =>
        have hsame : (step w e).called = (e.call.map (·.now)).getD w.called := rfl
        rw [hsame, hcall]
        exact ⟨le_rfl, hlt⟩
      | some c =>
        have hnow := hearly c hcall
        have hback := (hsteady.1 c hcall).1
        rw [called_of_call hcall]
        omega
    obtain ⟨hsome, hfocused⟩ := app_step h hsteady
    refine ⟨?_, ?_, hsome, hfocused, focus_step h hsteady, ?_, fun a ha => ?_⟩
    · rw [htick]
      omega
    · rw [htick]
      exact hcalled.2
    · rw [Watch.dropped, Watch.added, htick, hadded]
      exact hdropped
    · rw [hadded] at ha
      exact (h.times a ha).trans hcalled.1
  · push Not at hearly
    obtain ⟨c, hcall, hge⟩ := hearly
    obtain ⟨htick, hadded, hsum⟩ := step_of_ge h hsteady hcall happ hge
    have hback := (hsteady.1 c hcall).1
    have hcalled := called_of_call (w := w) hcall
    obtain ⟨hsome, hfocused⟩ := app_step h hsteady
    refine ⟨?_, ?_, hsome, hfocused, focus_step h hsteady, ?_, fun a ha => ?_⟩
    · rw [htick, hcalled]
    · rw [htick, hcalled]
      omega
    · have hstarted : (step w e).started = w.started := rfl
      rw [Watch.dropped, htick, hsum, hstarted]
      omega
    · rw [hcalled]
      rw [hadded] at ha
      rcases List.mem_cons.mp ha with rfl | ha
      · exact le_rfl
      · exact (h.times a ha).trans hback

/-- A step of the tracker is one of the times that it keeps. -/
theorem times_step (h : Regular w) (hsteady : Steady w e) :
    (step w e).times = w.times.step e := by
  obtain ⟨app, happ⟩ := Option.isSome_iff_exists.mp h.app
  have hfocus : (step w e).focus = refocus w.focus e := rfl
  have hstarted : (step w e).started = w.started := rfl
  rw [Watch.times, hfocus, Watch.dropped, hstarted, Watch.added, Times.step]
  cases hcall : e.call with
  | none =>
    obtain ⟨htick, hadded⟩ := step_of_lt (w := w) (e := e) (by rw [hcall]; exact nofun)
    rw [htick, hadded]
    rfl
  | some c =>
    dsimp only
    rcases lt_or_ge (c.now - w.tracker.lastTick) 1000000 with hearly | hge
    · obtain ⟨htick, hadded⟩ := step_of_lt (w := w) (e := e) (by
        rw [hcall]
        exact fun d hd => Option.some_inj.mp hd ▸ hearly)
      rw [htick, hadded]
      exact (if_pos hearly).symm
    · obtain ⟨htick, -, hsum⟩ := step_of_ge h hsteady hcall happ hge
      have hfractions : c.now - w.started -
          1000000 * ((c.now - w.tracker.lastTick) / 1000000 + w.added) =
          w.dropped + (c.now - w.tracker.lastTick) % 1000000 := by
        rw [Watch.dropped]
        omega
      rw [← Watch.added, htick, hsum, hfractions]
      exact (if_neg hge.not_gt).symm

/-- The applications of the seconds that were added before stay as they are. -/
theorem focused_step (h : Regular w) (hkeeps : KeepsTime w) (hsteady : Steady w e) :
    ∀ a ∈ w.tracker.additions, ∀ u, a.time - 1000000 * a.seconds ≤ u → u < a.time →
      valueAt (step w e).focus u = some (some a.app) := by
  intro a ha u hstart hu
  rw [← hkeeps.focused a ha u hstart hu]
  cases hcall : e.call with
  | none =>
    cases e with
    | breakIdle idle => rfl
    | tick d | focused d app | today d | ending d => exact absurd hcall (Option.some_ne_none d)
  | some c => exact valueAt_step hcall ((hu.trans_le (h.times a ha)).trans_le (hsteady.1 c hcall).1)

/-- **One step.** What is dropped is what the difference grows by. -/
theorem keepsTime_step (h : Regular w) (hsteady : Steady w e) (hkeeps : KeepsTime w) :
    KeepsTime (step w e) ↔ Accurate w.times e := by
  obtain ⟨app, happ⟩ := Option.isSome_iff_exists.mp h.app
  have hle := h.lastTick_le
  have hlt := h.called_lt
  have hdropped := h.dropped
  have hold := focused_step h hkeeps hsteady
  have hstarted : (step w e).started = w.started := rfl
  rw [Watch.dropped] at hdropped
  cases hcall : e.call with
  | none =>
    obtain ⟨htick, hadded⟩ := step_of_lt (w := w) (e := e) (by rw [hcall]; exact nofun)
    have hcalled : (step w e).called = (e.call.map (·.now)).getD w.called := rfl
    rw [hcall] at hcalled
    refine iff_of_true ⟨?_, ?_⟩ ?_
    · rw [hstarted, hcalled, Watch.added, hadded]
      exact hkeeps.total
    · rw [hadded]
      exact hold
    · rw [Accurate, hcall]
      exact nofun
  | some c =>
    have hback := (hsteady.1 c hcall).1
    have hcalled := called_of_call (w := w) hcall
    have haccurate : Accurate w.times e ↔
        w.dropped + (c.now - w.tracker.lastTick) % 1000000 < 1000000 ∧
        (1000000 ≤ c.now - w.tracker.lastTick →
          since w.tracker.currentApp c.now w.focus - w.tracker.lastTick ≤
            (c.now - w.tracker.lastTick) % 1000000) := by
      rw [Accurate, hcall, h.focused]
      exact ⟨fun hall => hall c rfl, fun hall d hd => Option.some_inj.mp hd ▸ hall⟩
    rw [haccurate]
    rcases lt_or_ge (c.now - w.tracker.lastTick) 1000000 with hearly | hge
    · obtain ⟨htick, hadded⟩ := step_of_lt (w := w) (e := e) (by
        rw [hcall]
        exact fun d hd => Option.some_inj.mp hd ▸ hearly)
      have htotal : (step w e).called - (step w e).started - 1000000 * (step w e).added =
          w.dropped + (c.now - w.tracker.lastTick) % 1000000 := by
        rw [hstarted, hcalled, Watch.added, hadded, Watch.dropped, Watch.added]
        omega
      constructor
      · rintro ⟨htotal', -⟩
        rw [htotal, abs_lt] at htotal'
        exact ⟨htotal'.2, fun hbad => absurd hbad hearly.not_ge⟩
      · rintro ⟨hfraction, -⟩
        refine ⟨?_, ?_⟩
        · rw [htotal, abs_lt]
          have hnonneg := h.dropped
          omega
        · rw [hadded]
          exact hold
    · obtain ⟨htick, hadded, hsum⟩ := step_of_ge h hsteady hcall happ hge
      have htotal : (step w e).called - (step w e).started - 1000000 * (step w e).added =
          w.dropped + (c.now - w.tracker.lastTick) % 1000000 := by
        rw [hstarted, hcalled, hsum, Watch.dropped]
        omega
      have hfocus : (∀ u, c.now - 1000000 * ((c.now - w.tracker.lastTick) / 1000000) ≤ u →
          u < c.now → valueAt (step w e).focus u = some (some app)) ↔
          since w.tracker.currentApp c.now w.focus - w.tracker.lastTick ≤
            (c.now - w.tracker.lastTick) % 1000000 := by
        have hiff : (∀ u, c.now - 1000000 * ((c.now - w.tracker.lastTick) / 1000000) ≤ u →
            u < c.now → valueAt w.focus u = some w.tracker.currentApp) ↔
            since w.tracker.currentApp c.now w.focus ≤
              c.now - 1000000 * ((c.now - w.tracker.lastTick) / 1000000) :=
          valueAt_eq_iff_since (h.focus.mono hback)
        constructor
        · intro hall
          have hsince := hiff.mp fun u hstart hu => by
            rw [← valueAt_step hcall hu, happ]
            exact hall u hstart hu
          omega
        · intro hsince u hstart hu
          rw [valueAt_step hcall hu, ← happ]
          exact hiff.mpr (by omega) u hstart hu
      rw [← hfocus]
      constructor
      · rintro ⟨htotal', hfocused⟩
        rw [htotal, abs_lt] at htotal'
        have hnew := hfocused ⟨c.day, app, (c.now - w.tracker.lastTick) / 1000000, c.now⟩ (by
          rw [hadded]
          exact List.mem_cons_self)
        exact ⟨htotal'.2, fun _ => hnew⟩
      · rintro ⟨hfraction, hright⟩
        refine ⟨?_, fun a ha => ?_⟩
        · rw [htotal, abs_lt]
          have hnonneg := h.dropped
          omega
        · rw [hadded] at ha
          rcases List.mem_cons.mp ha with rfl | ha
          · exact hright hge
          · exact hold a ha

/-- **The runs that keep time.** All along the run the seconds that were added differ from the time
that has passed by less than one, and were added to the application that was focused, exactly
when no call comes at a time at which too much is dropped. -/
theorem keepsTime_iff {now : ℤ} {app : Text} {es : List Event}
    (hsteady : Guarded step Steady (start now app) es) :
    (∀ es', es' <+: es → KeepsTime (run step (start now app) es')) ↔
      Guarded Times.step Accurate (Times.start now app) es := by
  have hstart : (start now app).times = Times.start now app := by
    rw [Watch.times, Watch.dropped]
    congr 1
    change now - now - 1000000 * 0 = 0
    omega
  have hmap : Guarded step (fun w e => Accurate w.times e) (start now app) es ↔
      Guarded Times.step Accurate (start now app).times es :=
    Guarded.map_iff Watch.times (fun _ _ h hsteady => regular_step h hsteady)
      (fun _ _ h hsteady => times_step h hsteady) hsteady (regular_start now app)
  rw [← hstart, ← hmap]
  exact Guarded.iff_forall_prefix (fun _ _ h hsteady => regular_step h hsteady)
    (fun _ _ h hsteady hkeeps => keepsTime_step h hsteady hkeeps) hsteady (regular_start now app)
    (keepsTime_start now app)

/-- A call in an ordinary session. -/
def ordinary (now : ℤ) : Call where
  now := now
  recording := true
  remind := false
  breakMinutes := 0
  locked := false
  idleSeconds := 0
  day := ofString "2026-07-01"

theorem steady_ordinary {now : ℤ} (hcall : e.call = some (ordinary now))
    (hback : w.called ≤ now) (hnext : now ≤ w.called + 60000000)
    (happ : ∀ c app, e = .focused c app → app.isSome = true) : Steady w e := by
  refine ⟨fun c hc => ?_, happ⟩
  rw [hcall] at hc
  obtain rfl := Option.some_inj.mp hc
  exact ⟨hback, hnext, rfl, rfl, rfl⟩

/-- The timer, a change of the application on a whole second, and a look at the times. -/
def wholeSeconds : List Event :=
  [.tick (ordinary 15000000), .focused (ordinary 16000000) (some [98]),
    .today (ordinary 17200000)]

theorem keepsTime_wholeSeconds : KeepsTime (run step (start 0 [97]) wholeSeconds) := by
  have hsteady : Guarded step Steady (start 0 [97]) wholeSeconds := by
    refine ⟨steady_ordinary rfl (by decide) (by decide) nofun,
      steady_ordinary rfl (by decide) (by decide) fun c app happ => ?_,
      steady_ordinary rfl (by decide) (by decide) nofun, trivial⟩
    rw [← (Event.focused.inj happ).2]
    rfl
  have haccurate : Guarded Times.step Accurate (Times.start 0 [97]) wholeSeconds := by
    refine ⟨?_, ?_, ?_, trivial⟩
    · rintro c ⟨⟩
      decide
    · rintro c ⟨⟩
      decide
    · rintro c ⟨⟩
      decide
  exact (keepsTime_iff hsteady).mpr haccurate _ (List.prefix_refl _)

/-- Two looks at the times that are 1.9 seconds apart. -/
def looks : List Event := [.today (ordinary 1900000), .today (ordinary 3800000)]

/-- A change of the application right before the timer. -/
def change : List Event := [.focused (ordinary 900000) (some [98]), .tick (ordinary 1000000)]

/-- **Fractions are dropped, or go to another application.** Of 3.8 seconds two are counted. A
second goes to an application that was focused for a tenth of it. -/
theorem not_keepsTime :
    (Guarded step Steady (start 0 [97]) looks ∧ ¬ KeepsTime (run step (start 0 [97]) looks)) ∧
    Guarded step Steady (start 0 [97]) change ∧ ¬ KeepsTime (run step (start 0 [97]) change) := by
  refine ⟨⟨⟨?_, ?_, trivial⟩, fun h => ?_⟩, ⟨?_, ?_, trivial⟩, fun h => ?_⟩
  · exact steady_ordinary rfl (by decide) (by decide) nofun
  · exact steady_ordinary rfl (by decide) (by decide) nofun
  · have htotal : |(3800000 - 0 - 1000000 * 2 : ℤ)| < 1000000 := h.total
    exact absurd htotal (by decide)
  · refine steady_ordinary rfl (by decide) (by decide) fun c app happ => ?_
    rw [← (Event.focused.inj happ).2]
    rfl
  · exact steady_ordinary rfl (by decide) (by decide) nofun
  · have hnone := h.focused ⟨ofString "2026-07-01", [98], 1, 1000000⟩ List.mem_cons_self 0
      (by decide) (by decide)
    exact absurd hnone (by decide)

end Parental

end SingularityShell
