import SingularityShell.Idle.Model
import SingularityShell.Lib.Transition

/-!
# Waking a dark screen

While a screen is dark, the next input of the user should bring it back. It does so when a watch has
gone idle, since the compositor then reports the input.

## Main definitions

* `Idle.Dark` — the screens are off or dimmed
* `Idle.Wakeable` — a dark screen comes back at the next input
* `Idle.Safe` — the steps after which it does

## Main results

* `Idle.wakeable_iff` — every state of a run can be woken exactly when every step is safe
* `Idle.not_wakeable` — the screen stays dark when the power cable is pulled while it is
-/

namespace SingularityShell

namespace Idle

open Transition IdleManager

/-- The screens are off or dimmed. -/
def Dark (m : IdleManager) : Prop := m.blanked = true ∨ m.dimmed = true

instance (m : IdleManager) : Decidable (Dark m) := inferInstanceAs (Decidable (_ ∨ _))

/-- **A dark screen can be woken by input.** While the screens are off or dimmed, an armed watch is
idle and recorded as such, and when any watch that is idle resumes, the screens are on and bright.
-/
structure Wakeable (m : IdleManager) : Prop where
  fired : Dark m → ∃ w ∈ m.watches, w.idle = true ∧ w.id ∈ m.fired
  resumed : ∀ w ∈ m.watches, w.idle = true →
    ¬Dark (m.step (.resumed w.id)) ∧ (m.step (.resumed w.id)).power = true

/-- The inhibition by clients ends when `inhibitors` are the inhibitors that are left. -/
def Ends (m : IdleManager) (inhibitors : Option IdleInhibitors) : Prop :=
  m.dbusInhibited = true ∧ ∃ r ∈ inhibitors, r.inhibits idleFlag false = false

/-- The step leaves a screen that can be woken: the watches are not armed anew while the screen is
dark, and the screen is not turned off while the user is active. -/
def Safe (m : IdleManager) : Event → Prop
  | .settingsChanged _ => m.available = true → ¬Dark m
  | .batteryChanged _ => m.available = true → ¬Dark m
  | .unInhibit cookie sender =>
    Ends m (m.inhibitors.remove cookie sender) → m.available = true → ¬Dark m
  | .senderVanished sender =>
    Ends m (m.inhibitors.releaseSender sender) → m.available = true → ¬Dark m
  | .setActive active => active = true → m.blanked = true ∨ m.fired.Nonempty
  | _ => True

/-! ### The methods -/

/-- What is true of every state: what has fired is idle, the state of the inhibitors is known, and
the screens are on when they should be. -/
structure Tracked (m : IdleManager) : Prop where
  fired : ∀ id ∈ m.fired, ∃ w ∈ m.watches, w.id = id ∧ w.idle = true
  inhibited : m.dbusInhibited = m.inhibitors.inhibits idleFlag false
  power : m.power = !m.blanked

section
variable {m m' : IdleManager}

theorem Tracked.congr (h : Tracked m) (hwatches : m'.watches = m.watches)
    (hfired : m'.fired = m.fired) (hinhibitors : m'.inhibitors = m.inhibitors)
    (hdbus : m'.dbusInhibited = m.dbusInhibited) (hpower : m'.power = !m'.blanked) :
    Tracked m' where
  fired := by
    rw [hwatches, hfired]
    exact h.fired
  inhibited := by rw [hdbus, hinhibitors, h.inhibited]
  power := hpower

/-- What turning the screens on or off leaves as it is. -/
theorem blankScreens_frame (on : Bool) : (m.blankScreens on).watches = m.watches ∧
    (m.blankScreens on).fired = m.fired ∧ (m.blankScreens on).inhibitors = m.inhibitors ∧
      (m.blankScreens on).dbusInhibited = m.dbusInhibited := by
  rw [blankScreens]
  split
  · exact ⟨rfl, rfl, rfl, rfl⟩
  split
  · exact ⟨rfl, rfl, rfl, rfl⟩
  · exact ⟨rfl, rfl, rfl, rfl⟩

theorem blanked_blankScreens (on : Bool) : (m.blankScreens on).blanked = on := by
  rw [blankScreens]
  split
  · assumption
  split
  · next h => exact h.symm
  · next h => exact (Bool.eq_false_iff.mpr h).symm

theorem Tracked.blankScreens (h : Tracked m) (on : Bool) : Tracked (m.blankScreens on) := by
  obtain ⟨hwatches, hfired, hinhibitors, hdbus⟩ := blankScreens_frame (m := m) on
  refine h.congr hwatches hfired hinhibitors hdbus ?_
  rw [IdleManager.blankScreens]
  split
  · exact h.power
  split
  · rfl
  · rfl

theorem not_dark_brighten : ¬Dark m.brighten := by
  rw [brighten]
  split
  · next h =>
    have hon : m.undim.blanked ≠ false := by simp [h]
    rw [blankScreens, if_neg hon, if_neg Bool.false_ne_true]
    exact fun hd => hd.elim Bool.false_ne_true Bool.false_ne_true
  · next h => exact fun hd => hd.elim h Bool.false_ne_true

theorem Tracked.brighten (h : Tracked m) : Tracked m.brighten := by
  have hundim : Tracked m.undim := h.congr rfl rfl rfl rfl h.power
  rw [IdleManager.brighten]
  split
  · exact hundim.blankScreens false
  · exact hundim

theorem fired_rearm (ha : m.available = true) : m.rearm.fired = ∅ := by
  rw [rearm, ha]
  rfl

theorem rearm_of_not_available (ha : m.available = false) : m.rearm = m := by
  rw [rearm, ha]
  rfl

/-- Arming the watches anew changes nothing about the screens. -/
theorem rearm_frame : m.rearm.blanked = m.blanked ∧ m.rearm.dimmed = m.dimmed ∧
    m.rearm.inhibitors = m.inhibitors ∧ m.rearm.dbusInhibited = m.dbusInhibited ∧
      m.rearm.power = m.power := by
  rw [rearm]
  split
  · exact ⟨rfl, rfl, rfl, rfl, rfl⟩
  · exact ⟨rfl, rfl, rfl, rfl, rfl⟩

theorem dark_rearm : Dark m.rearm ↔ Dark m := by
  rw [Dark, rearm_frame.1, rearm_frame.2.1, Dark]

theorem Tracked.rearm (h : Tracked m) : Tracked m.rearm := by
  obtain ⟨hblanked, -, hinhibitors, hdbus, hpower⟩ := rearm_frame (m := m)
  refine ⟨fun id hid => ?_, ?_, ?_⟩
  · cases ha : m.available with
    | true => simp [fired_rearm ha] at hid
    | false =>
      rw [rearm_of_not_available ha] at hid ⊢
      exact h.fired id hid
  · rw [hdbus, hinhibitors, h.inhibited]
  · rw [hpower, hblanked, h.power]

/-- Windows that keep the session awake are none of the manager's inhibitors. -/
theorem markWindowInhibit_eq (h : Tracked m) (on : Bool) : m.markWindowInhibit on =
    { m with inhibitors := { m.inhibitors with windowInhibit := on } } := by
  rw [markWindowInhibit]
  split
  · next hon => rw [← hon]
  · have hnow :
        ({ m.inhibitors with windowInhibit := on } : IdleInhibitors).inhibits idleFlag false =
        m.inhibitors.inhibits idleFlag false := by simp [IdleInhibitors.inhibits]
    simp [onInhibitorsChanged, hnow, h.inhibited]

theorem Tracked.markWindowInhibit (h : Tracked m) (on : Bool) :
    Tracked (m.markWindowInhibit on) := by
  rw [markWindowInhibit_eq h]
  exact ⟨h.fired, h.inhibited.trans (by simp [IdleInhibitors.inhibits]), h.power⟩

/-! ### The events -/

/-- A watch of what has fired is idle whenever the screens are dark. -/
def Lit (m : IdleManager) : Prop := Dark m → m.fired.Nonempty

theorem Lit.of_not_dark (h : ¬Dark m) : Lit m := fun hd => absurd hd h

theorem Tracked.mark_idle (h : Tracked m) (id : WatchId) : Tracked (m.mark id true) := by
  refine ⟨fun id' hid' => ?_, h.inhibited, h.power⟩
  obtain ⟨w, hw, hwid, hidle⟩ := h.fired id' hid'
  refine ⟨_, List.mem_map_of_mem hw, ?_⟩
  split
  · exact ⟨hwid, rfl⟩
  · exact ⟨hwid, hidle⟩

/-- A watch that resumes is taken out of what has fired. -/
theorem Tracked.mark_resumed (h : Tracked m) (id : WatchId) :
    Tracked { m.mark id false with fired := m.fired.erase id } := by
  refine ⟨fun id' hid' => ?_, h.inhibited, h.power⟩
  obtain ⟨hne, hfired⟩ := Finset.mem_erase.mp hid'
  obtain ⟨w, hw, rfl, hidle⟩ := h.fired id' hfired
  refine ⟨_, List.mem_map_of_mem hw, ?_⟩
  rw [if_neg hne]
  exact ⟨rfl, hidle⟩

theorem act_spec (h : Tracked m) (hfired : m.fired.Nonempty) (id : WatchId) :
    Tracked (m.act id) ∧ (m.act id).fired.Nonempty := by
  cases id with
  | dim =>
    rw [act, dim]
    split
    · exact ⟨h, hfired⟩
    · exact ⟨h.congr rfl rfl rfl rfl h.power, hfired⟩
  | blank =>
    refine ⟨h.blankScreens true, ?_⟩
    rw [act, (blankScreens_frame true).2.1]
    exact hfired
  | lock => exact ⟨h.congr rfl rfl rfl rfl h.power, hfired⟩
  | suspend => exact ⟨h.congr rfl rfl rfl rfl h.power, hfired⟩
  | probe => exact ⟨h, hfired⟩

theorem idled_spec {id : WatchId} (h : Tracked m) (hlit : Lit m)
    (hid : ∃ w ∈ m.watches, w.id = id ∧ w.idle = true) :
    Tracked (m.handleIdle id) ∧ Lit (m.handleIdle id) := by
  rw [handleIdle]
  split
  · exact ⟨h.congr rfl rfl rfl rfl h.power, hlit⟩
  have hinsert : Tracked { m with fired := insert id m.fired } := by
    refine ⟨fun id' hid' => ?_, h.inhibited, h.power⟩
    rcases Finset.mem_insert.mp hid' with rfl | hid'
    · exact hid
    · exact h.fired id' hid'
  have htracked := hinsert.markWindowInhibit false
  have hfired : ({ m with fired := insert id m.fired }.markWindowInhibit false).fired.Nonempty := by
    rw [markWindowInhibit_eq hinsert]
    exact Finset.insert_nonempty id m.fired
  generalize { m with fired := insert id m.fired }.markWindowInhibit false = m' at htracked hfired
  dsimp only
  split
  · exact ⟨htracked, fun _ => hfired⟩
  · obtain ⟨hact, hfired⟩ := act_spec htracked hfired id
    exact ⟨hact, fun _ => hfired⟩

theorem resumed_spec (id : WatchId) (h : Tracked m) :
    Tracked ((m.mark id false).handleResume id) ∧ ¬Dark ((m.mark id false).handleResume id) := by
  have herase := h.mark_resumed id
  rw [handleResume]
  split
  · have hprobe : Tracked { m.mark id false with fired := m.fired.erase id, probeCheck := false } :=
      herase.congr rfl rfl rfl rfl herase.power
    exact ⟨(hprobe.markWindowInhibit false).brighten, not_dark_brighten⟩
  · exact ⟨herase.brighten, not_dark_brighten⟩

theorem probed_spec (h : Tracked m) (hlit : Lit m) : Tracked m.probed ∧ Lit m.probed := by
  have hoff : Tracked { m with probeCheck := false } := h.congr rfl rfl rfl rfl h.power
  have hmark : Lit ({ m with probeCheck := false }.markWindowInhibit true) := by
    rw [markWindowInhibit_eq hoff]
    exact hlit
  rw [probed]
  split
  · split
    · exact ⟨hoff, hlit⟩
    · exact ⟨hoff.markWindowInhibit true, hmark⟩
  · exact ⟨hoff.markWindowInhibit true, hmark⟩

/-- Arming the watches anew leaves a dark screen that no input wakes. -/
theorem lit_rearm_iff (hlit : Lit m) : Lit m.rearm ↔ m.available = true → ¬Dark m := by
  cases ha : m.available with
  | true =>
    have hnot : ¬m.rearm.fired.Nonempty := by simp [fired_rearm ha]
    exact ⟨fun h _ hd => hnot (h (dark_rearm.mpr hd)),
      fun h => .of_not_dark (mt dark_rearm.mp (h rfl))⟩
  | false =>
    rw [rearm_of_not_available ha]
    exact ⟨fun _ h => absurd h Bool.false_ne_true, fun _ => hlit⟩

theorem onInhibitorsChanged_of_begins (hwas : m.dbusInhibited = false)
    (hnow : m.inhibitors.inhibits idleFlag false = true) :
    m.onInhibitorsChanged = { m with dbusInhibited := true }.brighten := by
  simp [onInhibitorsChanged, hwas, hnow]

theorem onInhibitorsChanged_of_ends (hwas : m.dbusInhibited = true)
    (hnow : m.inhibitors.inhibits idleFlag false = false) :
    m.onInhibitorsChanged =
      if m.fired.Nonempty then { m with dbusInhibited := false }.rearm
      else { m with dbusInhibited := false } := by
  simp [onInhibitorsChanged, hwas, hnow]

theorem onInhibitorsChanged_of_eq {b : Bool} (hwas : m.dbusInhibited = b)
    (hnow : m.inhibitors.inhibits idleFlag false = b) :
    m.onInhibitorsChanged = { m with dbusInhibited := b } := by
  cases b
  · simp [onInhibitorsChanged, hwas, hnow]
  · simp [onInhibitorsChanged, hwas, hnow]

theorem onInhibitorsChanged_spec
    (h : Tracked { m with dbusInhibited := m.inhibitors.inhibits idleFlag false }) (hlit : Lit m) :
    Tracked m.onInhibitorsChanged ∧ (Lit m.onInhibitorsChanged ↔
      (m.dbusInhibited = true ∧ m.inhibitors.inhibits idleFlag false = false →
        m.available = true → ¬Dark m)) := by
  cases hwas : m.dbusInhibited with
  | false =>
    have hnot {P Q : Prop} (he : false = true ∧ P) : Q := absurd he.1 Bool.false_ne_true
    cases hnow : m.inhibitors.inhibits idleFlag false with
    | false =>
      rw [onInhibitorsChanged_of_eq hwas hnow]
      exact ⟨hnow ▸ h, fun _ he => hnot he, fun _ => hlit⟩
    | true =>
      rw [onInhibitorsChanged_of_begins hwas hnow]
      exact ⟨(hnow ▸ h).brighten, fun _ he => hnot he, fun _ => .of_not_dark not_dark_brighten⟩
  | true =>
    cases hnow : m.inhibitors.inhibits idleFlag false with
    | false =>
      rw [onInhibitorsChanged_of_ends hwas hnow]
      split
      · have hlit' : Lit { m with dbusInhibited := false } := hlit
        refine ⟨(hnow ▸ h).rearm, (lit_rearm_iff hlit').trans ?_⟩
        exact ⟨fun h _ => h, fun h => h ⟨rfl, rfl⟩⟩
      · next hfired => exact ⟨hnow ▸ h, fun _ _ _ hd => hfired (hlit hd), fun _ => hlit⟩
    | true =>
      rw [onInhibitorsChanged_of_eq hwas hnow]
      exact ⟨hnow ▸ h, fun _ he => absurd he.2.symm Bool.false_ne_true, fun _ => hlit⟩

theorem withInhibitors_spec (h : Tracked m) (hlit : Lit m) (o : Option IdleInhibitors) :
    Tracked (m.withInhibitors o) ∧
      (Lit (m.withInhibitors o) ↔ (Ends m o → m.available = true → ¬Dark m)) := by
  cases o with
  | none => exact ⟨h, fun _ he => absurd he.2 (by simp), fun _ => hlit⟩
  | some r =>
    have hends : Ends m (some r) ↔ m.dbusInhibited = true ∧ r.inhibits idleFlag false = false := by
      simp [Ends]
    rw [hends]
    exact onInhibitorsChanged_spec (m := { m with inhibitors := r }) ⟨h.fired, rfl, h.power⟩ hlit

theorem setActive_spec (h : Tracked m) (hlit : Lit m) (active : Bool) :
    Tracked (m.blankScreens active) ∧
      (Lit (m.blankScreens active) ↔ (active = true → m.blanked = true ∨ m.fired.Nonempty)) := by
  have hfired := (blankScreens_frame (m := m) active).2.1
  refine ⟨h.blankScreens active, fun hl ha => ?_, fun hs hd => ?_⟩
  · have hdark : Dark (m.blankScreens active) := Or.inl ((blanked_blankScreens active).trans ha)
    exact Or.inr (hfired ▸ hl hdark)
  · rw [hfired]
    cases active with
    | true => exact (hs rfl).elim (fun hb => hlit (Or.inl hb)) id
    | false =>
      refine hlit (hd.elim (fun hb => ?_) fun hdim => Or.inr ?_)
      · rw [blanked_blankScreens] at hb
        exact absurd hb Bool.false_ne_true
      · rw [blankScreens] at hdim
        split at hdim
        · exact hdim
        · exact absurd hdim Bool.false_ne_true

/-- **One event.** It keeps what is true of every state, and it leaves a screen that can be woken
exactly when it is safe. -/
theorem step_spec (h : Tracked m) (hlit : Lit m) (e : Event) :
    Tracked (m.step e) ∧ (Lit (m.step e) ↔ Safe m e) := by
  have hsafe {m' : IdleManager} {e : Event} (hm : Tracked m' ∧ Lit m') (hs : Safe m e) :
      Tracked m' ∧ (Lit m' ↔ Safe m e) := ⟨hm.1, fun _ => hs, fun _ => hm.2⟩
  cases e with
  | idled id =>
    rw [step]
    split
    · next hid =>
      obtain ⟨w, hw, hwid⟩ := List.any_eq_true.mp hid
      rw [Bool.and_eq_true, decide_eq_true_eq] at hwid
      refine hsafe (idled_spec (h.mark_idle id) hlit ⟨_, List.mem_map_of_mem hw, ?_⟩) trivial
      rw [if_pos hwid.1]
      exact ⟨hwid.1, rfl⟩
    · exact hsafe ⟨h, hlit⟩ trivial
  | resumed id =>
    rw [step]
    split
    · obtain ⟨htracked, hdark⟩ := resumed_spec id h
      exact hsafe ⟨htracked, .of_not_dark hdark⟩ trivial
    · exact hsafe ⟨h, hlit⟩ trivial
  | probed =>
    rw [step]
    split
    · exact hsafe (probed_spec h hlit) trivial
    · exact hsafe ⟨h, hlit⟩ trivial
  | settingsChanged config =>
    have hset : Tracked { m with config } := h.congr rfl rfl rfl rfl h.power
    exact ⟨hset.rearm, lit_rearm_iff (m := { m with config }) hlit⟩
  | batteryChanged onBattery =>
    have hset : Tracked { m with onBattery } := h.congr rfl rfl rfl rfl h.power
    exact ⟨hset.rearm, lit_rearm_iff (m := { m with onBattery }) hlit⟩
  | inhibit sender flags =>
    obtain ⟨htracked, hiff⟩ := withInhibitors_spec h hlit (some (m.inhibitors.add sender flags))
    refine hsafe ⟨htracked, hiff.mpr ?_⟩ trivial
    -- Another inhibitor ends no inhibition.
    rintro ⟨hwas, r, hr, hnow⟩
    obtain rfl := Option.mem_some_iff.mp hr
    rw [h.inhibited] at hwas
    simp only [IdleInhibitors.inhibits, IdleInhibitors.add, Bool.false_and, Bool.false_or,
      List.any_append, Bool.or_eq_false_iff] at hwas hnow
    exact absurd (hwas.symm.trans hnow.1) (by simp)
  | unInhibit cookie sender => exact withInhibitors_spec h hlit _
  | senderVanished sender => exact withInhibitors_spec h hlit _
  | setActive active => exact setActive_spec h hlit active
  | simulateUserActivity =>
    refine hsafe ⟨h.brighten.rearm, ?_⟩ trivial
    exact .of_not_dark (mt dark_rearm.mp not_dark_brighten)

/-- A state in which what has fired is idle can be woken when something has fired or it is not dark.
-/
theorem wakeable_iff_lit (h : Tracked m) : Wakeable m ↔ Lit m := by
  refine ⟨fun hw hd => ?_, fun hlit => ⟨fun hd => ?_, fun w hw hidle => ?_⟩⟩
  · obtain ⟨w, -, -, hfired⟩ := hw.fired hd
    exact ⟨w.id, hfired⟩
  · obtain ⟨id, hid⟩ := hlit hd
    obtain ⟨w, hw, rfl, hidle⟩ := h.fired id hid
    exact ⟨w, hw, hidle, hid⟩
  · obtain ⟨htracked, hdark⟩ := resumed_spec w.id h
    have hany : (m.watches.any fun w' => w'.id = w.id && w'.idle) = true :=
      List.any_eq_true.mpr ⟨w, hw, by simp [hidle]⟩
    rw [step, if_pos hany]
    refine ⟨hdark, htracked.power.trans ?_⟩
    rw [Bool.not_eq_true', Bool.eq_false_iff]
    exact fun hb => hdark (Or.inl hb)

end

/-! ### The main results -/

/-- **When a dark screen can be woken.** Every state of a run can be woken exactly when the watches
are never armed anew while the screen is dark, by new settings, by the battery or when an inhibition
ends, and the screen is never turned off over the bus while no watch is idle. -/
theorem wakeable_iff (available inputOnly : Bool) (config : Config) (onBattery : Bool)
    (es : List Event) :
    (∀ es', es' <+: es → Wakeable (run step (.start available inputOnly config onBattery) es')) ↔
      Guarded step Safe (.start available inputOnly config onBattery) es := by
  have hbare : Tracked { available, inputOnly, config, onBattery } :=
    ⟨fun id hid => absurd hid (Finset.notMem_empty id), rfl, rfl⟩
  have hstart : Tracked (.start available inputOnly config onBattery) := hbare.rearm
  have hlit : Lit (.start available inputOnly config onBattery) := by
    refine .of_not_dark (mt dark_rearm.mp ?_)
    exact fun hd => hd.elim Bool.false_ne_true Bool.false_ne_true
  refine guarded_iff_forall_prefix (I := Tracked) (fun m e h hw => ?_) (fun m e h hw => ?_) hstart
    ((wakeable_iff_lit hstart).mpr hlit) es
  · exact (step_spec h ((wakeable_iff_lit h).mp hw) e).1
  · obtain ⟨hnext, hiff⟩ := step_spec h ((wakeable_iff_lit h).mp hw) e
    exact (wakeable_iff_lit hnext).trans hiff

/-- The screens were turned off after a time of no input, and then the power cable is pulled: no
watch is idle any more, and no input turns the screens on. -/
theorem not_wakeable :
    let config : Config := ⟨300, 120, 0, 0, false, none⟩
    ¬Wakeable (run step (.start true true config false) [.idled .blank, .batteryChanged true]) := by
  intro config h
  have hdark : Dark (run step (.start true true config false)
      [.idled .blank, .batteryChanged true]) := by decide +kernel
  have hfired : (run step (.start true true config false)
      [.idled .blank, .batteryChanged true]).fired = ∅ := by decide +kernel
  obtain ⟨w, -, -, hmem⟩ := h.fired hdark
  exact absurd (hfired ▸ hmem) (Finset.notMem_empty w.id)

end Idle

end SingularityShell
