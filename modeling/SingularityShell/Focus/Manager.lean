import SingularityShell.Focus.Format
import SingularityShell.Lib.Transition

/-!
# The focus manager

The manager keeps the mode that is on. Turning focus off while a mode is on by itself suppresses
that mode, until another mode or none would be on.

## Main definitions

* `Focus.FocusManager` — the manager, with the settings it reads and writes
* `Focus.FocusManager.evaluate`, `activate`, `deactivate` — its methods
* `Focus.FocusManager.step` — one call, at a time
* `Focus.OffLasts` — what turning focus off means
* `Focus.Covered` — the mode that would be on is the one that is suppressed

## Main results

* `Focus.offLasts_iff` — focus stays off exactly when the mode that would be on is covered
* `Focus.not_offLasts` — a mode behind one that is on by hand comes up
-/

namespace SingularityShell

namespace Focus

open Ascii Transition

/-- The time of a call, in seconds since the epoch and as a local time. -/
structure Clock where
  real : ℤ
  now : DateTime

/-- The manager. `notif` tells whether there are settings for `focusMode` and `focusUntil`, and
`given` lists what `modes.evaluate` has given so far. -/
structure FocusManager where
  modes : FocusModeSet
  notif : Bool
  doNotDisturb : Bool
  focusMode : Text
  focusUntil : ℤ
  fullscreen : Bool
  presenters : List (UInt32 × Text) := []
  nextCookie : UInt32 := 1
  suppressed : Text := []
  state : FocusState := none
  stateUntil : ℤ := 0
  given : List FocusState := []

namespace FocusManager

variable (sync : Bool) (c : Clock) (m : FocusManager)

/-! ### Evaluation -/

def presenting : Bool := !m.presenters.isEmpty

/-- `manual_mode_id` -/
def manualModeId : Text := if m.notif then m.focusMode else Focus.doNotDisturb

/-- The end of the manual mode, 0 when there is none. -/
def manualEnd : ℤ := if m.notif then m.focusUntil else 0

/-- The manual mode that `evaluate` passes on. -/
def manual : Text :=
  if m.doNotDisturb then
    if (m.modes.find m.manualModeId).isNone then Focus.doNotDisturb else m.manualModeId
  else []

/-- What `modes.evaluate` gives. -/
def raw : FocusState := m.modes.evaluate m.manual c.now m.presenting m.fullscreen

/-- What becomes of a state that `modes.evaluate` has given, and of the suppressed mode. -/
def suppress (suppressed : Text) (raw : FocusState) : FocusState × Text :=
  if suppressed ≠ [] then
    if raw.isSome ∧ raw.reason ≠ .manual ∧ raw.modeId = some suppressed then (none, suppressed)
    else if raw.isNone ∨ raw.modeId ≠ some suppressed then (raw, [])
    else (raw, suppressed)
  else (raw, suppressed)

/-- `evaluate` from the call of `modes.evaluate` on. -/
def look : FocusManager :=
  let next := suppress m.suppressed (m.raw c)
  { m with
    suppressed := next.2
    state := next.1
    stateUntil := if next.1.reason = .manual then m.manualEnd else 0
    given := m.given ++ [m.raw c] }

/-- A setting was written: a new value calls a method at once when the settings report changes in
the call that makes them, and `evaluate` is called later when not. -/
def written (changed : Bool) (reenter : FocusManager → FocusManager) : FocusManager :=
  if sync && changed then reenter m else m

def setDoNotDisturb (reenter : FocusManager → FocusManager) (on : Bool) : FocusManager :=
  { m with doNotDisturb := on }.written sync (m.doNotDisturb ≠ on) reenter

def setFocusMode (reenter : FocusManager → FocusManager) (id : Text) : FocusManager :=
  { m with focusMode := id }.written sync (m.focusMode ≠ id) reenter

def setFocusUntil (reenter : FocusManager → FocusManager) (until' : ℤ) : FocusManager :=
  { m with focusUntil := until' }.written sync (m.focusUntil ≠ until') reenter

/-- A mode that is on by hand has come to its end. -/
def expired : Bool := m.doNotDisturb ∧ m.manualEnd > 0 ∧ c.real ≥ m.manualEnd

/-- `evaluate`. The evaluations that its own writes call find no end: the first write has taken it
away, and the second one switches the mode off. -/
def evaluate : FocusManager :=
  if m.expired c then
    (m.setFocusUntil sync (·.look c) 0).setDoNotDisturb sync (·.look c) false
  else m.look c

/-! ### Methods -/

/-- `activate` -/
def activate (id : Text) (minutes : UInt32) : FocusManager :=
  if (m.modes.find id).isNone then m
  else
    let until' := if minutes > 0 then c.real + (minutes * 60).toNat else 0
    let m := { m with suppressed := [] }
    let m :=
      if m.notif then
        (m.setFocusMode sync (·.evaluate sync c) id).setFocusUntil sync (·.evaluate sync c) until'
      else m
    (m.setDoNotDisturb sync (·.evaluate sync c) true).evaluate sync c

/-- The mode that `deactivate` suppresses. -/
def hidden : Text :=
  match m.state with
  | some (mode, reason) => if reason ≠ .manual then mode.id else m.suppressed
  | none => m.suppressed

/-- `deactivate` -/
def deactivate : FocusManager :=
  let m := { m with suppressed := m.hidden }
  let m := m.setDoNotDisturb sync (·.evaluate sync c) false
  let m := if m.notif then m.setFocusUntil sync (·.evaluate sync c) 0 else m
  m.evaluate sync c

/-- `toggle` -/
def toggle : FocusManager :=
  if m.state.isSome then m.deactivate sync c else m.activate sync c m.manualModeId 0

/-- `begin_presenting` -/
def beginPresenting (sender : Text) : UInt32 × FocusManager :=
  let cookie := m.nextCookie
  let presenters := (cookie, sender) :: m.presenters.filter (·.1 ≠ cookie)
  (cookie, { m with presenters, nextCookie := cookie + 1 }.evaluate sync c)

/-- `end_presenting` -/
def endPresenting (cookie : UInt32) : FocusManager :=
  if m.presenters.any (·.1 = cookie) then
    { m with presenters := m.presenters.filter (·.1 ≠ cookie) }.evaluate sync c
  else m

/-- `drop_sender` -/
def dropSender (sender : Text) : FocusManager :=
  { m with presenters := m.presenters.filter (·.2 ≠ sender) }.evaluate sync c

/-- `update_fullscreen` -/
def updateFullscreen (fs : Bool) : FocusManager :=
  if fs = m.fullscreen then m else { m with fullscreen := fs }.evaluate sync c

/-- A new manager, with the modes of a file. -/
def start (lib : Json.Library) (root : Option Json) (notif doNotDisturb : Bool) (focusMode : Text)
    (focusUntil : ℤ) (fullscreen : Bool) : FocusManager :=
  let m : FocusManager :=
    { modes := .fromData lib root, notif, doNotDisturb, focusMode, focusUntil, fullscreen }
  m.evaluate sync c

end FocusManager

/-! ### Calls -/

inductive Call where
  | activate (id : Text) (minutes : UInt32)
  | deactivate
  | toggle
  | beginPresenting (sender : Text)
  | endPresenting (cookie : UInt32)
  | dropSender (sender : Text)
  | updateFullscreen (fs : Bool)
  | evaluate

namespace FocusManager

/-- One call. -/
def step (sync : Bool) (m : FocusManager) : Clock × Call → FocusManager
  | (c, .activate id minutes) => m.activate sync c id minutes
  | (c, .deactivate) => m.deactivate sync c
  | (c, .toggle) => m.toggle sync c
  | (c, .beginPresenting sender) => (m.beginPresenting sync c sender).2
  | (c, .endPresenting cookie) => m.endPresenting sync c cookie
  | (c, .dropSender sender) => m.dropSender sync c sender
  | (c, .updateFullscreen fs) => m.updateFullscreen sync c fs
  | (c, .evaluate) => m.evaluate sync c

/-- The call is one of `activate`, also through `toggle`. -/
def Activates (m : FocusManager) (e : Clock × Call) : Prop :=
  match e.2 with
  | .activate _ _ => True
  | .toggle => m.state = none
  | _ => False

/-- The call is one of `deactivate`, also through `toggle`. -/
def Deactivates (m : FocusManager) (e : Clock × Call) : Prop :=
  match e.2 with
  | .deactivate => True
  | .toggle => m.state ≠ none
  | _ => False

/-- The mode that would be on by itself. -/
def automatic (m : FocusManager) (c : Clock) : FocusState :=
  m.modes.evaluate [] c.now m.presenting m.fullscreen

/-- What `modes.evaluate` has given since a state with `n` evaluations. -/
def givenSince (m : FocusManager) (n : ℕ) : List FocusState := m.given.drop n

end FocusManager

open FocusManager

/-- **Turning focus off lasts.** The state is not active right after `deactivate` in the state `m`.
It stays so while nobody activates a mode and `modes.evaluate` keeps giving the mode that would have
been on by itself. Once it gives another mode than the suppressed one, or none, nothing is
suppressed and the state is what `modes.evaluate` gives, until focus is turned off again. -/
structure OffLasts (sync : Bool) (m : FocusManager) (c : Clock) : Prop where
  off : (m.deactivate sync c).state = none
  stays : ∀ es m', Guarded (step sync) (fun m e => ¬m.Activates e) (m.deactivate sync c) es →
    run (step sync) (m.deactivate sync c) es = m' →
    (∀ r ∈ m'.givenSince (m.deactivate sync c).given.length,
      r.modeId = (m.automatic c).modeId ∧ r.reason ≠ .manual) → m'.state = none
  ended : ∀ es m', Guarded (step sync) (fun m e => ¬m.Deactivates e) (m.deactivate sync c) es →
    run (step sync) (m.deactivate sync c) es = m' →
    (∃ r ∈ m'.givenSince (m.deactivate sync c).given.length,
      r.modeId ≠ some (m.deactivate sync c).suppressed) →
    m'.suppressed = [] ∧ m'.given.getLast? = some m'.state

/-- No mode would be on by itself, or only the one that `deactivate` suppresses. -/
def Covered (m : FocusManager) (c : Clock) : Prop :=
  m.automatic c = none ∨ (m.automatic c).modeId = some m.hidden

instance (m : FocusManager) (c : Clock) : Decidable (Covered m c) :=
  inferInstanceAs (Decidable (_ ∨ _))

namespace FocusManager

variable {sync : Bool} {c : Clock} {m : FocusManager}

/-! ### What a method can do -/

/-- A change of the settings that turns no mode on by hand. -/
structure Rewritten (m m' : FocusManager) : Prop where
  modes : m'.modes = m.modes
  fullscreen : m'.fullscreen = m.fullscreen
  presenters : m'.presenters = m.presenters
  suppressed : m'.suppressed = m.suppressed
  state : m'.state = m.state
  given : m'.given = m.given
  doNotDisturb : m'.doNotDisturb = true → m.doNotDisturb = true

/-- A change of what `modes.evaluate` is called with that turns no mode on by hand. -/
structure Changed (m m' : FocusManager) : Prop where
  modes : m'.modes = m.modes
  suppressed : m'.suppressed = m.suppressed
  state : m'.state = m.state
  given : m'.given = m.given
  doNotDisturb : m'.doNotDisturb = true → m.doNotDisturb = true

theorem Rewritten.changed {m m' : FocusManager} (h : Rewritten m m') : Changed m m' :=
  ⟨h.modes, h.suppressed, h.state, h.given, h.doNotDisturb⟩

/-- A property that is kept by changes of the settings and by evaluations at the time `c`. -/
structure Stable (c : Clock) (P : FocusManager → Prop) : Prop where
  rewritten : ∀ {m m'}, Rewritten m m' → P m → P m'
  look : ∀ {m}, P m → P (m.look c)

section
variable {P : FocusManager → Prop}

theorem written_stable {changed : Bool} {reenter : FocusManager → FocusManager}
    (hre : ∀ m, P m → P (reenter m)) (h : P m) : P (m.written sync changed reenter) := by
  rw [written]
  split
  · exact hre m h
  · exact h

namespace Stable

variable (hP : Stable c P)

include hP

theorem setFocusMode {reenter : FocusManager → FocusManager} (hre : ∀ m, P m → P (reenter m))
    (id : Text) (h : P m) : P (m.setFocusMode sync reenter id) :=
  written_stable hre (hP.rewritten (m := m) ⟨rfl, rfl, rfl, rfl, rfl, rfl, fun h => h⟩ h)

theorem setFocusUntil (sync : Bool) {reenter : FocusManager → FocusManager}
    (hre : ∀ m, P m → P (reenter m)) (until' : ℤ) (h : P m) :
    P (m.setFocusUntil sync reenter until') :=
  written_stable hre (hP.rewritten (m := m) ⟨rfl, rfl, rfl, rfl, rfl, rfl, fun h => h⟩ h)

theorem evaluate (h : P m) : P (m.evaluate sync c) := by
  rw [FocusManager.evaluate]
  split
  · have huntil := hP.setFocusUntil sync (fun m hm => (hP.look hm : P (m.look c))) 0 h
    generalize m.setFocusUntil sync (·.look c) 0 = m₁ at huntil
    refine written_stable (fun _ => hP.look) (hP.rewritten (m := m₁) ?_ huntil)
    exact ⟨rfl, rfl, rfl, rfl, rfl, rfl, fun h => absurd h (by simp)⟩
  · exact hP.look h

/-- `deactivate`, from where `do-not-disturb` is off and the suppressed mode recorded: the last of
its evaluations. -/
theorem deactivate (sync : Bool) (h : P { m with suppressed := m.hidden, doNotDisturb := false }) :
    ∃ m₁, P m₁ ∧ m.deactivate sync c = m₁.evaluate sync c := by
  have heval : ∀ m, P m → P (m.evaluate sync c) := fun _ => hP.evaluate
  let m₁ := { m with suppressed := m.hidden }.setDoNotDisturb sync (·.evaluate sync c) false
  have hoff : P m₁ := written_stable heval h
  refine ⟨if m₁.notif then m₁.setFocusUntil sync (·.evaluate sync c) 0 else m₁, ?_, rfl⟩
  split
  · exact hP.setFocusUntil sync heval 0 hoff
  · exact hoff

/-- `activate`, for a property that is kept when a mode is switched on by hand. -/
theorem activate (hon : ∀ m, P m → P { m with doNotDisturb := true })
    (hreset : P { m with suppressed := [] }) (h : P m) (id : Text) (minutes : UInt32) :
    P (m.activate sync c id minutes) := by
  rw [FocusManager.activate]
  split
  · exact h
  have heval : ∀ m, P m → P (m.evaluate sync c) := fun _ => hP.evaluate
  refine heval _ (written_stable heval (hon _ ?_))
  split
  · exact hP.setFocusUntil sync heval _ (hP.setFocusMode heval id hreset)
  · exact hreset

/-- The calls that are neither `activate` nor `deactivate`. -/
theorem step (hchanged : ∀ {m m'}, Changed m m' → P m → P m') {call : Call}
    (ha : ¬m.Activates (c, call)) (hd : ¬m.Deactivates (c, call)) (h : P m) :
    P (m.step sync (c, call)) := by
  have heval {m' : FocusManager} (hc : Changed m m') : P (m'.evaluate sync c) :=
    hP.evaluate (hchanged hc h)
  cases call with
  | activate id minutes => exact absurd trivial ha
  | deactivate => exact absurd trivial hd
  | toggle => exact absurd (not_not.mp hd) ha
  | beginPresenting sender => exact heval ⟨rfl, rfl, rfl, rfl, id⟩
  | endPresenting cookie =>
    rw [FocusManager.step, endPresenting]
    split
    · exact heval ⟨rfl, rfl, rfl, rfl, id⟩
    · exact h
  | dropSender sender => exact heval ⟨rfl, rfl, rfl, rfl, id⟩
  | updateFullscreen fs =>
    rw [FocusManager.step, updateFullscreen]
    split
    · exact h
    · exact heval ⟨rfl, rfl, rfl, rfl, id⟩
  | evaluate => exact hP.evaluate h

end Stable

end

theorem step_of_activates (sync : Bool) {call : Call} (h : m.Activates (c, call)) :
    ∃ id minutes, m.step sync (c, call) = m.activate sync c id minutes := by
  cases call with
  | activate id minutes => exact ⟨id, minutes, rfl⟩
  | toggle =>
    refine ⟨m.manualModeId, 0, ?_⟩
    rw [FocusManager.step, toggle, if_neg]
    rw [show m.state = none from h]
    exact Bool.false_ne_true
  | _ => exact absurd h id

theorem step_of_deactivates {call : Call} (h : m.Deactivates (c, call)) :
    m.step sync (c, call) = m.deactivate sync c := by
  cases call with
  | deactivate => rfl
  | toggle => rw [FocusManager.step, toggle, if_pos (Option.isSome_iff_ne_none.mpr h)]
  | _ => exact absurd h id

/-! ### One evaluation -/

theorem reason_automatic_ne_manual : (m.automatic c).reason ≠ .manual := by
  rw [automatic, FocusModeSet.evaluate, if_neg (by simp)]
  dsimp only
  split
  · exact FocusReason.noConfusion
  split
  · exact FocusReason.noConfusion
  split
  · exact FocusReason.noConfusion
  · exact FocusReason.noConfusion

/-- The mode of a state is one of the modes. -/
theorem mem_of_evaluate {set : FocusModeSet} {manualId : Text} {now : DateTime}
    {presenting fullscreen : Bool} {mode : FocusMode} {reason : FocusReason}
    (h : set.evaluate manualId now presenting fullscreen = some (mode, reason)) :
    mode ∈ set.modes := by
  have hite {cond : Prop} [Decidable cond] {o : Option FocusMode} {mode' : FocusMode}
      (h : (if cond then o else none) = some mode') : o = some mode' := by
    split at h
    · exact h
    · cases h
  rw [FocusModeSet.evaluate] at h
  split at h
  · next hm =>
    cases h
    exact List.mem_of_find?_eq_some (hite hm)
  split at h
  · next hm =>
    cases h
    exact List.mem_of_find?_eq_some hm
  split at h
  · next hm =>
    cases h
    exact List.mem_of_find?_eq_some (hite hm)
  split at h
  · next hm =>
    cases h
    exact List.mem_of_find?_eq_some (hite hm)
  · cases h

theorem raw_eq_automatic (h : m.doNotDisturb = false) : m.raw c = m.automatic c := by
  rw [raw, manual, if_neg (by simp [h]), automatic]

theorem suppress_suppress (s : Text) (r : FocusState) :
    suppress (suppress s r).2 r = suppress s r := by
  simp only [suppress]
  split_ifs <;> simp_all

theorem suppress_fst_eq_none_iff {s : Text} {r : FocusState} (hm : r.reason ≠ .manual) :
    (suppress s r).1 = none ↔ r = none ∨ s ≠ [] ∧ r.modeId = some s := by
  rw [suppress]
  split_ifs with hs hcov hother
  · exact ⟨fun _ => Or.inr ⟨hs, hcov.2.2⟩, fun _ => rfl⟩
  · refine ⟨Or.inl, fun h => h.elim id fun h => ?_⟩
    refine absurd h.2 (hother.elim (fun hn => ?_) id)
    rw [Option.isNone_iff_eq_none.mp hn]
    exact (nomatch ·)
  · push Not at hother
    exact absurd ⟨Option.isSome_iff_ne_none.mpr (by simpa using hother.1), hm, hother.2⟩ hcov
  · exact ⟨Or.inl, fun h => h.elim id fun h => absurd h.1 hs⟩

/-- What `deactivate` has done in the end. -/
theorem deactivate_spec (sync : Bool) (c : Clock) (m : FocusManager) :
    let m' := m.deactivate sync c
    m'.modes = m.modes ∧ m'.doNotDisturb = false ∧
      (m'.state, m'.suppressed) = suppress m.hidden (m.automatic c) := by
  let P (m' : FocusManager) : Prop := m'.modes = m.modes ∧ m'.doNotDisturb = false ∧
    m'.automatic c = m.automatic c ∧
      suppress m'.suppressed (m.automatic c) = suppress m.hidden (m.automatic c)
  have hP : Stable c P := by
    refine ⟨fun {m₁ m₂} h hm => ?_, fun {m₁} hm => ?_⟩
    · obtain ⟨hmodes, hdnd, hauto, hs⟩ := hm
      refine ⟨h.modes.trans hmodes, Bool.eq_false_iff.mpr fun ht => ?_, ?_, h.suppressed ▸ hs⟩
      · exact absurd (h.doNotDisturb ht) (by simp [hdnd])
      · rw [← hauto, automatic, automatic, presenting, presenting, h.modes, h.presenters,
          h.fullscreen]
    · obtain ⟨hmodes, hdnd, hauto, hs⟩ := hm
      refine ⟨hmodes, hdnd, hauto, ?_⟩
      rw [← hs, ← hauto, ← raw_eq_automatic hdnd]
      exact suppress_suppress _ _
  obtain ⟨m₁, ⟨hmodes, hdnd, hauto, hs⟩, heq⟩ :=
    hP.deactivate (m := m) sync ⟨rfl, rfl, rfl, rfl⟩
  have hlook : m₁.evaluate sync c = m₁.look c := by
    rw [evaluate, expired, if_neg (by simp [hdnd])]
  dsimp only
  rw [heq, hlook]
  refine ⟨hmodes, hdnd, ?_⟩
  rw [← hs, ← hauto, ← raw_eq_automatic hdnd]
  rfl

/-! ### Runs after focus was turned off -/

theorem givenSince_look {n : ℕ} (hn : n ≤ m.given.length) :
    (m.look c).givenSince n = m.givenSince n ++ [m.raw c] :=
  List.drop_append_of_le_length hn

theorem named_automatic (h : ∀ mode ∈ m.modes.modes, mode.id ≠ []) {s : Text}
    (hs : (m.automatic c).modeId = some s) : s ≠ [] := by
  obtain ⟨⟨mode, reason⟩, hauto, rfl⟩ := Option.map_eq_some_iff.mp hs
  exact h mode (mem_of_evaluate hauto)

/-- Focus stays off while nobody activates a mode: `n` evaluations ago it was off, and `id` was the
mode that would have been on by itself. -/
structure Off (n : ℕ) (id : Option Text) (m : FocusManager) : Prop where
  named : ∀ mode ∈ m.modes.modes, mode.id ≠ []
  doNotDisturb : m.doNotDisturb = false
  since : n ≤ m.given.length
  off : (∀ r ∈ m.givenSince n, r.modeId = id) →
    m.state = none ∧ (id = none ∨ id = some m.suppressed)

theorem Off.changed {n : ℕ} {id : Option Text} {m m' : FocusManager} (hc : Changed m m')
    (h : Off n id m) : Off n id m' where
  named := hc.modes ▸ h.named
  doNotDisturb := Bool.eq_false_iff.mpr fun ht => by simpa [h.doNotDisturb] using hc.doNotDisturb ht
  since := hc.given ▸ h.since
  off hr := by
    rw [hc.state, hc.suppressed]
    refine h.off fun r hmem => hr r ?_
    rwa [givenSince, hc.given]

theorem Off.look {n : ℕ} {id : Option Text} (h : Off n id m) : Off n id (m.look c) where
  named := h.named
  doNotDisturb := h.doNotDisturb
  since := h.since.trans (by simp [FocusManager.look])
  off hr := by
    rw [givenSince_look h.since, List.forall_mem_append, List.forall_mem_singleton] at hr
    obtain ⟨hold, hraw⟩ := hr
    obtain ⟨-, hid⟩ := h.off hold
    change (suppress m.suppressed (m.raw c)).1 = none ∧
      (id = none ∨ id = some (suppress m.suppressed (m.raw c)).2)
    rw [raw_eq_automatic h.doNotDisturb] at hraw ⊢
    rcases hid with rfl | rfl
    · have hnone : m.automatic c = none := Option.map_eq_none_iff.mp hraw
      exact ⟨(suppress_fst_eq_none_iff reason_automatic_ne_manual).mpr (Or.inl hnone), Or.inl rfl⟩
    · have hne := named_automatic h.named hraw
      have hsome : (m.automatic c).isSome := by
        obtain ⟨a, ha, -⟩ := Option.map_eq_some_iff.mp hraw
        exact Option.isSome_iff_exists.mpr ⟨a, ha⟩
      have hcov : suppress m.suppressed (m.automatic c) = (none, m.suppressed) := by
        rw [suppress, if_pos hne, if_pos ⟨hsome, reason_automatic_ne_manual, hraw⟩]
      rw [hcov]
      exact ⟨rfl, Or.inr rfl⟩

theorem Off.step {n : ℕ} {id : Option Text} (h : Off n id m) {e : Clock × Call}
    (ha : ¬m.Activates e) : Off n id (m.step sync e) := by
  obtain ⟨c, call⟩ := e
  have hP : Stable c (Off n id) := ⟨fun hr h => h.changed hr.changed, fun h => h.look⟩
  by_cases hd : m.Deactivates (c, call)
  · have hoff : Off n id { m with suppressed := m.hidden, doNotDisturb := false } :=
      { h with
        doNotDisturb := rfl
        off := fun hr => by
          obtain ⟨hstate, hid⟩ := h.off hr
          refine ⟨hstate, ?_⟩
          change id = none ∨ id = some m.hidden
          rwa [hidden, hstate] }
    obtain ⟨m₁, hm₁, heq⟩ := hP.deactivate sync hoff
    rw [step_of_deactivates hd, heq]
    exact hP.evaluate hm₁
  · exact hP.step Off.changed ha hd h

/-- The suppression of `s` is over once another mode or none was given in the last `n` evaluations.
-/
structure Over (n : ℕ) (s : Text) (m : FocusManager) : Prop where
  since : n ≤ m.given.length
  suppressed : m.suppressed = s ∨ m.suppressed = []
  ended : (∃ r ∈ m.givenSince n, r.modeId ≠ some s) →
    m.suppressed = [] ∧ m.given.getLast? = some m.state

theorem Over.congr {n : ℕ} {s : Text} {m m' : FocusManager} (h : Over n s m)
    (hs : m'.suppressed = m.suppressed ∨ m'.suppressed = []) (hg : m'.given = m.given)
    (hstate : m'.state = m.state) : Over n s m' where
  since := hg ▸ h.since
  suppressed := hs.elim (fun hs => hs ▸ h.suppressed) Or.inr
  ended hr := by
    rw [givenSince, hg] at hr
    obtain ⟨hnil, hlast⟩ := h.ended hr
    rw [hg, hstate]
    exact ⟨hs.elim (fun hs => hs.trans hnil) id, hlast⟩

theorem Over.look {n : ℕ} {s : Text} (h : Over n s m) : Over n s (m.look c) := by
  have hsince : n ≤ (m.look c).given.length := h.since.trans (by simp [FocusManager.look])
  have hlast : (m.look c).given.getLast? = some (m.raw c) := List.getLast?_concat
  have hover (hnext : suppress m.suppressed (m.raw c) = (m.raw c, [])) : Over n s (m.look c) := by
    have hs : (m.look c).suppressed = [] := congrArg Prod.snd hnext
    refine ⟨hsince, Or.inr hs, fun _ => ⟨hs, hlast.trans ?_⟩⟩
    exact congrArg some (congrArg Prod.fst hnext).symm
  by_cases hs : m.suppressed = []
  · exact hover (by rw [suppress, if_neg (by simpa using hs), hs])
  have hold : m.suppressed = s := h.suppressed.resolve_right hs
  by_cases hraw : (m.raw c).modeId = some m.suppressed
  · -- The mode is given again: nothing else was given so far.
    have hnext : (suppress m.suppressed (m.raw c)).2 = m.suppressed := by
      rw [suppress, if_pos hs]
      split_ifs with hcov hother
      · rfl
      · refine absurd hraw (hother.elim (fun hn => ?_) id)
        rw [Option.isNone_iff_eq_none.mp hn]
        exact (nomatch ·)
      · rfl
    refine ⟨hsince, Or.inl (hnext.trans hold), ?_⟩
    rintro ⟨r, hr, hne⟩
    rw [givenSince_look h.since, List.mem_append, List.mem_singleton] at hr
    rcases hr with hr | rfl
    · exact absurd (h.ended ⟨r, hr, hne⟩).1 hs
    · exact absurd (hold ▸ hraw) hne
  · refine hover ?_
    rw [suppress, if_pos hs, if_neg fun h => hraw h.2.2, if_pos (Or.inr hraw)]

theorem Over.step {n : ℕ} {s : Text} (h : Over n s m) {e : Clock × Call}
    (hd : ¬m.Deactivates e) : Over n s (m.step sync e) := by
  obtain ⟨c, call⟩ := e
  have hchanged {m m' : FocusManager} (hc : Changed m m') (h : Over n s m) : Over n s m' :=
    h.congr (Or.inl hc.suppressed) hc.given hc.state
  have hP : Stable c (Over n s) := ⟨fun hr => hchanged hr.changed, fun h => h.look⟩
  by_cases ha : m.Activates (c, call)
  · obtain ⟨id, minutes, heq⟩ := step_of_activates sync ha
    rw [heq]
    exact hP.activate (fun m h => h.congr (Or.inl rfl) rfl rfl) (h.congr (Or.inr rfl) rfl rfl) h id
      minutes
  · exact hP.step hchanged ha hd h

/-- No method touches the modes. -/
theorem modes_step (e : Clock × Call) : (m.step sync e).modes = m.modes := by
  obtain ⟨c, call⟩ := e
  let P (m' : FocusManager) : Prop := m'.modes = m.modes
  have hP : Stable c P := ⟨fun hr h => hr.modes.trans h, fun h => h⟩
  by_cases ha : m.Activates (c, call)
  · obtain ⟨id, minutes, heq⟩ := step_of_activates sync ha
    rw [heq]
    exact hP.activate (fun _ h => h) rfl rfl id minutes
  by_cases hd : m.Deactivates (c, call)
  · rw [step_of_deactivates hd]
    exact (deactivate_spec sync c m).1
  · exact hP.step (fun hc h => hc.modes.trans h) ha hd rfl

end FocusManager

/-! ### The main results -/

section
variable (sync : Bool) (c : Clock) {m : FocusManager}

theorem state_deactivate_eq_none_iff (h : ∀ mode ∈ m.modes.modes, mode.id ≠ []) :
    (m.deactivate sync c).state = none ↔ Covered m c := by
  have hs : (m.deactivate sync c).state = (suppress m.hidden (m.automatic c)).1 :=
    congrArg Prod.fst (deactivate_spec sync c m).2.2
  rw [hs, suppress_fst_eq_none_iff reason_automatic_ne_manual, Covered]
  exact or_congr_right ⟨And.right, fun hid => ⟨named_automatic h hid, hid⟩⟩

theorem offLasts_of_covered (h : ∀ mode ∈ m.modes.modes, mode.id ≠ []) (hc : Covered m c) :
    OffLasts sync m c := by
  obtain ⟨hmodes, hdnd, hs⟩ := deactivate_spec sync c m
  have hoff := (state_deactivate_eq_none_iff sync c h).mpr hc
  refine ⟨hoff, ?_, ?_⟩
  · rintro es m' hg rfl hr
    have hstart : Off (m.deactivate sync c).given.length (m.automatic c).modeId
        (m.deactivate sync c) := by
      refine ⟨hmodes ▸ h, hdnd, le_rfl, fun _ => ⟨hoff, ?_⟩⟩
      rcases hc with hc | hc
      · exact Or.inl (Option.map_eq_none_iff.mpr hc)
      · have hne := named_automatic h hc
        obtain ⟨⟨mode, reason⟩, hauto, -⟩ := Option.map_eq_some_iff.mp hc
        have hcov : suppress m.hidden (m.automatic c) = (none, m.hidden) := by
          rw [suppress, if_pos hne, if_pos ⟨by rw [hauto]; rfl, reason_automatic_ne_manual, hc⟩]
        rw [hcov] at hs
        exact Or.inr (hc.trans (congrArg some (congrArg Prod.snd hs).symm))
    have hrun := hg.invariant (P := Off _ _) (fun m e h ha => Off.step h ha) hstart
    exact (hrun.off fun r hmem => (hr r hmem).1).1
  · rintro es m' hg rfl hr
    have hstart : Over (m.deactivate sync c).given.length (m.deactivate sync c).suppressed
        (m.deactivate sync c) := by
      refine ⟨le_rfl, Or.inl rfl, ?_⟩
      rintro ⟨r, hmem, -⟩
      rw [givenSince, List.drop_length] at hmem
      cases hmem
    exact (hg.invariant (P := Over _ _) (fun m e h hd => Over.step h hd) hstart).ended hr

/-- **When turning focus off lasts.** In every run it does so exactly when no mode would be on by
itself at that moment, or only the mode that is suppressed: the one that is on by itself or, when
none is, the one that was suppressed before. -/
theorem offLasts_iff (lib : Json.Library) (root : Option Json) (notif doNotDisturb : Bool)
    (focusMode : Text) (focusUntil : ℤ) (fullscreen : Bool) (c₀ : Clock)
    (es : List (Clock × Call)) :
    let m := run (step sync)
      (.start sync c₀ lib root notif doNotDisturb focusMode focusUntil fullscreen) es
    OffLasts sync m c ↔ Covered m c := by
  intro m
  have hmodes : m.modes = .fromData lib root := by
    let P (m : FocusManager) : Prop := m.modes = .fromData lib root
    have hP : Stable c₀ P := ⟨fun hr h => hr.modes.trans h, fun h => h⟩
    exact run_invariant (P := P) (fun m e h => (modes_step e).trans h) (hP.evaluate rfl) es
  have hnamed : ∀ mode ∈ m.modes.modes, mode.id ≠ [] :=
    hmodes ▸ (FocusModeSet.wellFormed_fromData root).named
  exact ⟨fun h => (state_deactivate_eq_none_iff sync c hnamed).mp h.off,
    offLasts_of_covered sync c hnamed⟩

end

/-- Somebody presents, which turns a mode on, and another mode is switched on by hand: when focus is
turned off, the mode for presenting is on. -/
theorem not_offLasts :
    let c : Clock := ⟨1700000000, ⟨1, 12, 0⟩⟩
    let m := run (step true) (.start true c Json.plainLibrary none true false [] 0 false)
      [(c, .beginPresenting []), (c, .activate (ofString "personal") 0)]
    ¬OffLasts true m c := by
  intro c m h
  have hstate : ¬(m.deactivate true c).state = none := by decide +kernel
  exact hstate h.off

end Focus

end SingularityShell
