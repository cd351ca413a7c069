import SingularityShell.Lock.Model

/-!
# Unlocking needs authentication

The leave phase begins with an accepted password or a match of the sensor, and the session is
unlocked from that phase, or at once when no output is configured. Neither way asks whether the
session is locked yet, whether it has been unlocked before, or whose verification the match belongs
to.

## Main definitions

* `Lock.Safe` — the session is unlocked once, when it is locked and the user authenticated
* `Lock.Regular` — an event that asks for nothing that the lock screen does not check

## Main results

* `Lock.granted_step` — the step lemma
* `Lock.safe_of_regular` — in a run of such events, unlocking is safe
-/

namespace SingularityShell

namespace Lock

variable {motion : Motion}

/-! ### What drawing does to the phase -/

theorem shakeOffset_phase (now : ℤ) (a : Anim) : (shakeOffset motion now a).phase = a.phase := by
  rw [shakeOffset]
  split
  · rfl
  · split_ifs <;> rfl

theorem applyPhase_phase (now : ℤ) (a : Anim) :
    (applyPhase now a).2.phase = .leave ↔ a.phase = .leave := by
  rw [applyPhase]
  by_cases hleave : a.phase = .leave
  · rw [if_neg (by rw [hleave]; decide)]
    dsimp only
    rw [if_pos hleave]
    split_ifs <;> rfl
  · refine iff_of_false (fun h => ?_) hleave
    dsimp only at h
    split_ifs at h <;> exact hleave h

variable (motion) in
theorem applyMotion_phase (now : ℤ) (a : Anim) :
    (applyMotion motion now a).2.phase = .leave ↔ a.phase = .leave := by
  rw [applyMotion]
  dsimp only
  rw [shakeOffset_phase]
  exact applyPhase_phase now a

theorem renderOutput_phase (o : Output) (a : Anim) :
    (renderOutput motion o a).2.phase = .leave ↔ a.phase = .leave := by
  rw [renderOutput]
  split_ifs
  · rfl
  · exact applyMotion_phase _ _ _
  · rfl

theorem renderOutputs_phase (outputs : List Output) (a : Anim) :
    (renderOutputs motion outputs a).2.phase = .leave ↔ a.phase = .leave := by
  induction outputs generalizing a with
  | nil => rfl
  | cons o outputs ih =>
    rw [renderOutputs]
    dsimp only
    split_ifs
    · exact (ih _).trans (renderOutput_phase o a)
    · exact ih a

theorem withOutput_phase {f : Output → Anim → Output × Anim}
    (hf : ∀ o a, (f o a).2.phase = .leave → a.phase = .leave) (id : ℕ) (outputs : List Output)
    (a : Anim) : (withOutput id f outputs a).2.phase = .leave → a.phase = .leave := by
  induction outputs generalizing a with
  | nil => exact fun h => h
  | cons o outputs ih =>
    rw [withOutput]
    split_ifs
    · exact hf o a
    · exact ih a

/-! ### What holds between two events -/

/-- Unlocking was requested at most once, and only in a locked session of an authenticated user. -/
structure Safe (s : State) : Prop where
  once : s.unlocks.length ≤ 1
  granted : ∀ u ∈ s.unlocks, u.locked = true ∧ u.authenticated = true

/-- In the leave phase, the session may be unlocked. -/
structure Granted (s : State) : Prop where
  safe : Safe s
  leaving : s.anim.phase = .leave → s.locked = true ∧ s.authenticated = true

/-- A password is accepted. -/
def State.Accepts (s : State) (rc : ℤ) : Prop :=
  s.keymap = true ∧ s.anim.phase ≠ .leave ∧ s.password ≠ [] ∧ rc = 0

/-- Nothing that the lock screen does not check is asked of it: a password is accepted and a match
arrives once the session is locked and before it is unlocked, the match belongs to a verification of
this process, and once the session is unlocked, no animation ends and no last output is removed. -/
def Regular (s : State) : Kind → Prop
  | .key .enter rc _ => s.Accepts rc → s.locked = true ∧ s.unlocks = []
  | .signal .verifyMatch _ => s.fprint.connected = true → s.anim.phase = .leave ∨
      s.fprint.claimed = true ∧ s.fprint.verification = true ∧ s.locked = true ∧ s.unlocks = []
  | .remove name => s.unlocks = [] ∨ s.anim.phase ≠ .leave ∨
      (s.outputs.eraseP (·.name = name)).any (·.configured) = true ∨
      s.outputs.any (·.name = name) = false
  | .frame _ now => s.unlocks = [] ∨ ¬s.anim.over now
  | _ => True

/-- Two states that differ in nothing that the property looks at, but for the phase. -/
theorem Granted.congr {s s' : State} (h : Granted s) (hunlocks : s'.unlocks = s.unlocks)
    (hlocked : s.locked = true → s'.locked = true)
    (hauth : s.authenticated = true → s'.authenticated = true)
    (hphase : s'.anim.phase = .leave → s.anim.phase = .leave) : Granted s' := by
  refine ⟨⟨hunlocks ▸ h.safe.once, hunlocks ▸ h.safe.granted⟩, fun hleave => ?_⟩
  exact (h.leaving (hphase hleave)).imp hlocked hauth

theorem Granted.renderAll {s : State} (h : Granted s) : Granted (renderAll motion s) :=
  h.congr rfl id id (renderOutputs_phase s.outputs s.anim).mp

theorem Granted.onFprintStatus {s : State} (h : Granted s) : Granted (onFprintStatus motion s) := by
  rw [Lock.onFprintStatus]
  split_ifs
  · exact h
  · exact h.renderAll

/-- The first request to unlock, of an authenticated user in a locked session. -/
theorem granted_unlockSession {s : State} (hunlocks : s.unlocks = []) (hlocked : s.locked = true)
    (hauth : s.authenticated = true) : Granted (unlockSession s) := by
  refine ⟨⟨?_, fun u hu => ?_⟩, fun _ => ⟨hlocked, hauth⟩⟩
  · rw [unlockSession, hunlocks]
    exact Nat.le_refl 1
  · rw [unlockSession, hunlocks] at hu
    rw [List.mem_singleton.mp hu]
    exact ⟨hlocked, hauth⟩

theorem granted_beginLeave {s : State} (h : Granted s)
    (hnew : s.anim.phase ≠ .leave → s.unlocks = [] ∧ s.locked = true ∧ s.authenticated = true) :
    Granted (beginLeave motion s) := by
  rw [beginLeave]
  split_ifs with hleave hany
  · exact h
  · obtain ⟨-, hlocked, hauth⟩ := hnew hleave
    have hstart : Granted { s with
        anim := startPhase motion .leave motionLargeMs { s.anim with shakeStart := none } } :=
      ⟨⟨h.safe.once, h.safe.granted⟩, fun _ => ⟨hlocked, hauth⟩⟩
    exact hstart.renderAll
  · obtain ⟨hunlocks, hlocked, hauth⟩ := hnew hleave
    exact granted_unlockSession hunlocks hlocked hauth

/-! ### The events -/

theorem granted_submitPassword {s : State} (h : Granted s) {rc : ℤ} (now : ℤ)
    (hok : s.password ≠ [] → rc = 0 → s.locked = true ∧ s.unlocks = []) :
    Granted (submitPassword motion rc now s) := by
  have hdrawn : Granted { renderAll motion s with password := [] } :=
    h.renderAll.congr rfl id id id
  have hshake (a : Anim) : (shake motion now a).phase = a.phase := by
    rw [shake]
    split_ifs <;> rfl
  rw [submitPassword]
  split_ifs with hempty hrc
  · exact h
  · obtain ⟨hlocked, hunlocks⟩ := hok (fun hnil => hempty (by rw [hnil]; rfl)) hrc
    exact granted_beginLeave (hdrawn.congr rfl id (fun _ => rfl) id)
      fun _ => ⟨hunlocks, hlocked, rfl⟩
  · have hshaken : Granted { renderAll motion s with
        password := [], anim := shake motion now (renderAll motion s).anim } :=
      hdrawn.congr rfl id id fun hleave => (hshake _).symm.trans hleave
    exact hshaken.renderAll

theorem granted_kbKey {s : State} (h : Granted s) {key : Key} {rc : ℤ} (now : ℤ)
    (hok : Regular s (.key key rc now)) : Granted (kbKey motion key rc now s) := by
  rw [kbKey]
  split_ifs with hlistens
  swap
  · exact h
  obtain ⟨hkeymap, hleave⟩ := hlistens
  cases key with
  | enter =>
    exact granted_submitPassword h now fun hpassword hrc => hok ⟨hkeymap, hleave, hpassword, hrc⟩
  | backSpace =>
    exact (show Granted { s with password := s.password.dropLast } from
      h.congr rfl id id id).renderAll
  | escape => exact (show Granted { s with password := [] } from h.congr rfl id id id).renderAll
  | media => exact h
  | text bytes =>
    rw [pressed]
    split_ifs
    · exact (show Granted { s with password := s.password ++ bytes } from
        h.congr rfl id id id).renderAll
    · exact h

theorem granted_onSignal {s : State} (h : Granted s) {result : VerifyResult} (done : Bool)
    (hconnected : s.fprint.connected = true) (hok : Regular s (.signal result done)) :
    Granted (onSignal motion result done s) := by
  have hreport (f : Fprint) : Granted (if result = .other then { s with fprint := f }
      else onFprintStatus motion { s with fprint := f }) := by
    have hs : Granted { s with fprint := f } := h.congr rfl id id id
    split_ifs
    · exact hs
    · exact hs.onFprintStatus
  have hretry (s' : State) (hs : Granted s') :
      Granted (if done = true then { s' with fprint := restartVerify s'.fprint } else s') := by
    split_ifs
    · exact hs.congr rfl id id id
    · exact hs
  cases result with
  | verifyMatch =>
    have hs : Granted { s with
        fprint := { s.fprint with verifying := false, verification := false },
        authenticated := s.authenticated || (s.fprint.claimed && s.fprint.verification) } :=
      h.congr rfl id (fun hauth => by rw [hauth]; rfl) id
    refine granted_beginLeave hs.renderAll fun hphase => ?_
    rcases hok hconnected with hleave | ⟨hclaimed, hverification, hlocked, hunlocks⟩
    · exact absurd ((renderOutputs_phase s.outputs s.anim).mpr hleave) hphase
    · refine ⟨hunlocks, hlocked, ?_⟩
      show (s.authenticated || (s.fprint.claimed && s.fprint.verification)) = true
      rw [hclaimed, hverification, Bool.and_self, Bool.or_true]
  | verifyDisconnected =>
    have hs :
        Granted { s with fprint := { s.fprint with verifying := false, verification := false } } :=
      h.congr rfl id id id
    exact hs.onFprintStatus
  | verifyNoMatch => exact hretry _ (hreport _)
  | verifySwipeTooShort => exact hretry _ (hreport _)
  | verifyFingerNotCentered => exact hretry _ (hreport _)
  | verifyRemoveAndRetry => exact hretry _ (hreport _)
  | verifyRetryScan => exact hretry _ (hreport _)
  | other => exact hretry _ (hreport _)

theorem granted_onReply {s : State} (h : Granted s) (call : Call) (ok : Bool) (fingers : ℕ) :
    Granted (onReply motion call ok fingers s) := by
  have hs (f : Fprint) : Granted { s with fprint := f } := h.congr rfl id id id
  rw [onReply]
  by_cases hpending : call ∈ s.fprint.pending
  · rw [if_pos hpending]
    dsimp only
    split_ifs
    · exact (hs _).onFprintStatus
    · exact hs _
  · rw [if_neg hpending]
    exact h

theorem granted_frameDone {s : State} (h : Granted s) {target : ℕ} {now : ℤ}
    (hok : Regular s (.frame target now)) : Granted (frameDone motion target now s) := by
  rw [frameDone]
  split_ifs with hwaits hover
  · obtain ⟨hlocked, hauth⟩ := h.leaving hover.1
    exact granted_unlockSession (hok.resolve_right (not_not.mpr hover)) hlocked hauth
  · refine h.congr rfl id id (withOutput_phase (fun o a => ?_) target s.outputs s.anim)
    exact (renderOutput_phase { o with frameCb := false } a).mp
  · exact h

theorem granted_regRemove {s : State} (h : Granted s) {name : ℕ} (hok : Regular s (.remove name)) :
    Granted (regRemove name s) := by
  rw [regRemove]
  by_cases hfound : s.outputs.any (·.name = name) = true
  swap
  · rw [if_neg hfound]
    exact h
  rw [if_pos hfound]
  dsimp only
  split_ifs with hlast
  · obtain ⟨hleave, hany⟩ := hlast
    have hunlocks : s.unlocks = [] := by
      rcases hok with hunlocks | hphase | hconfigured | hmissing
      · exact hunlocks
      · exact absurd hleave hphase
      · exact absurd hconfigured hany
      · exact absurd hfound (Bool.eq_false_iff.mp hmissing)
    obtain ⟨hlocked, hauth⟩ := h.leaving hleave
    exact granted_unlockSession hunlocks hlocked hauth
  · exact h.congr rfl id id id

/-- **The step lemma.** -/
theorem granted_step {s : State} (h : Granted s) {e : Event} (hok : Regular s e.kind) :
    Granted (step motion s e) := by
  obtain ⟨kind, renders⟩ := e
  obtain ⟨s', hs'⟩ : ∃ s', s' = { s with anim := { s.anim with renders } } := ⟨_, rfl⟩
  have h' : Granted s' := hs' ▸ h.congr rfl id id id
  have hok' : Regular s' kind := by
    rw [hs']
    cases kind with
    | key key rc now => cases key <;> exact hok
    | signal result done => cases result <;> exact hok
    | _ => exact hok
  rw [step]
  show Granted (handle motion { s with anim := { s.anim with renders } } kind)
  rw [← hs']
  cases kind with
  | output name => exact h'.congr rfl id id id
  | remove name => exact granted_regRemove h' hok'
  | locked => exact h'.congr rfl (fun _ => rfl) id id
  | finished => exact h'.congr rfl id id id
  | configure target =>
    refine h'.congr rfl id id (withOutput_phase (fun o a => ?_) target s'.outputs s'.anim)
    rw [configure]
    split_ifs
    · exact (renderOutput_phase { o with configured := true } a).mp
    · exact id
  | frame target now => exact granted_frameDone h' hok'
  | keymap => exact h'.congr rfl id id id
  | key key rc now => exact granted_kbKey h' now hok'
  | fprintStart => exact h'.congr rfl id id id
  | reply call ok fingers => exact granted_onReply h' call ok fingers
  | signal result done =>
    rw [handle]
    split_ifs with hconnected
    · exact granted_onSignal h' done hconnected hok'
    · exact h'
  | repaint => exact h'.renderAll

/-! ### Runs -/

theorem granted_init : Granted (.init motion) :=
  ⟨⟨Nat.zero_le 1, fun _ hu => nomatch hu⟩, fun h => nomatch h⟩

/-- **Unlocking needs authentication**, in every run in which no password is accepted and no match
arrives before the session is locked or after it is unlocked, every match belongs to a verification
of this process, and nothing ends the leave phase a second time. -/
theorem safe_of_regular {events : List Event}
    (h : Transition.Guarded (step motion) (fun s e => Regular s e.kind) (.init motion) events) :
    Safe (run motion (.init motion) events) :=
  (h.invariant (P := Granted) (fun _ _ hs he => granted_step hs he) granted_init).safe

/-- Settings without reduced motion, in which a shake is over at once. -/
def plainMotion : Motion := ⟨false, 1, fun _ => true⟩

/-- The session is locked, and the password of one letter is accepted. -/
def accepted : List Event :=
  [⟨.locked, []⟩, ⟨.keymap, []⟩, ⟨.key (.text [97]) 0 0, []⟩, ⟨.key .enter 0 0, []⟩]

theorem safe_accepted : Safe (run plainMotion (.init plainMotion) accepted) :=
  safe_of_regular ⟨trivial, trivial, trivial, fun _ => ⟨rfl, rfl⟩, trivial⟩

/-- The sensor is found, and another client's verification ends with a match. -/
def foreignMatch : List Event :=
  [⟨.fprintStart, []⟩, ⟨.reply .device true 0, []⟩, ⟨.signal .verifyMatch true, []⟩]

theorem not_safe : ¬∀ motion events, Safe (run motion (.init motion) events) := by
  intro h
  have hunlocks : (run plainMotion (.init plainMotion) foreignMatch).unlocks = [⟨false, false⟩] :=
    rfl
  have hgranted := (h plainMotion foreignMatch).granted
  rw [hunlocks] at hgranted
  exact absurd (hgranted _ List.mem_cons_self).1 Bool.false_ne_true

end Lock

end SingularityShell
