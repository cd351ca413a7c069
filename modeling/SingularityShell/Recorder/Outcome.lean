import SingularityShell.Recorder.Session

/-!
# The outcome of a recording

Each recording is reported once, as the process reports it, provided that the main loop delivers the
last line of a process before its exit.

## Main definitions

* `ScreenRecorder.Reports` — what is meant
* `ScreenRecorder.Timely` — events after which it holds
* `ScreenRecorder.Sound` — what holds whatever happens

## Main results

* `ScreenRecorder.sound_step` — one event keeps the variables in order
* `ScreenRecorder.reports_step` — one event
* `ScreenRecorder.reports_iff` — recordings are reported as meant in every state of a run exactly
  when its events are such
-/

namespace SingularityShell

namespace ScreenRecorder

open Ascii Transition

/-- What is meant. -/
structure Reports (s : State) : Prop where
  once : ∀ k, (s.sessions k).signals.length ≤ 1
  cancelled : ∀ k, (∃ line ∈ (s.sessions k).printed, IsCancelled line) →
    (s.sessions k).signals = []
  exited : ∀ k, 0 < k → k ≤ s.session → s.proc ≠ some k →
    (s.sessions k).read = (s.sessions k).printed.length →
      (∀ line ∈ (s.sessions k).printed, ¬IsCancelled line) → (s.sessions k).signals.length = 1
  saved : ∀ k, ∀ line ∈ (s.sessions k).printed, IsSaved line → (s.sessions k).killed = false →
    ∀ signal ∈ (s.sessions k).signals,
      signal = .finished (rest line) (warningsOf (s.sessions k).printed)
  kept : s.lost = []
  stale : ∀ p < s.session, s.killTimer ≠ some p ∧ (∀ empty, onExit p empty s = s) ∧
    { readStatus p s with sessions := s.sessions } = s ∧
      ∀ k, ((readStatus p s).sessions k).signals = (s.sessions k).signals

/-- The lines of a process that the main loop has not delivered yet. -/
def unread (s : State) (p : ℕ) : List Text := (s.sessions p).printed.drop (s.sessions p).read

/-- An event after which what is meant holds. When a process exits of which nothing has been
reported, the lines that are still to be delivered do not tell its outcome, and nothing is unlinked
that was announced; the kill timer does not overtake the line of a process that was cancelled, and
no such line is printed after it. -/
def Timely (s : State) : Event → Prop
  | .printed p line =>
    s.proc = some p → (∀ l ∈ (s.sessions p).printed, ¬IsLast l) → IsCancelled line →
      (s.sessions p).signals = []
  | .exited p empty =>
    s.proc = some p → s.reported = false →
      (∀ line ∈ unread s p, ¬IsSaved line ∧ ¬IsCancelled line) ∧
        ∀ path ∈ discarded empty s, ¬Announced s path
  | .killTimer =>
    ∀ p, s.killTimer = some p → s.reported = false → ∀ line ∈ unread s p, ¬IsCancelled line
  | _ => True

/-- What is known of the session that runs. -/
structure Running (s : State) (session : Session) : Prop where
  warnings : s.warnings = warningsOf (session.printed.take session.read)
  unreported : s.reported = false → session.signals = [] ∧ session.killed = false ∧
    ∀ line ∈ session.printed.take session.read, ¬IsLast line
  reported : s.reported = true →
    (session.killed = true ∨ ∃ line ∈ session.printed.take session.read, IsLast line) ∧
      (session.signals ≠ [] ∨ ∃ line ∈ session.printed, IsCancelled line)

/-- What holds whatever happens. -/
structure Sound (s : State) : Prop where
  proc : ∀ p, s.proc = some p → p = s.session ∧ 0 < p
  timer : ∀ p, s.killTimer = some p → s.proc = some p
  later : ∀ k, s.session < k → s.sessions k = {}
  read : ∀ k, (s.sessions k).read ≤ (s.sessions k).printed.length
  last : ∀ k, ∀ line ∈ (s.sessions k).printed.dropLast, ¬IsLast line
  running : ∀ p, s.proc = some p → Running s (s.sessions p)
  ended : ∀ k, 0 < k → k ≤ s.session → s.proc ≠ some k →
    (s.sessions k).signals ≠ [] ∨ ∃ line ∈ (s.sessions k).printed, IsCancelled line

/-! ### Lines -/

variable {s : State} {line : Text} {lines : List Text} {p k : ℕ}

theorem warningsOf_append (l l' : List Text) :
    warningsOf (l ++ l') = warningsOf l ++ warningsOf l' := by
  rw [warningsOf, List.filter_append, List.map_append, warningsOf, warningsOf]

theorem warningsOf_of_ne (h : verb line ≠ ofString "warning") : warningsOf [line] = [] := by
  simp [warningsOf, h]

theorem IsSaved.isLast (h : IsSaved line) : IsLast line := .inl h

theorem IsCancelled.isLast (h : IsCancelled line) : IsLast line := .inr (.inr h)

theorem IsSaved.ne_cancelled (h : IsSaved line) : ¬IsCancelled line := by
  intro hc
  rw [IsSaved] at h
  rw [IsCancelled, h] at hc
  exact absurd hc (by decide)

theorem IsLast.ne_warning (h : IsLast line) : verb line ≠ ofString "warning" := by
  rcases h with h | h | h
  · rw [IsSaved] at h
    rw [h]
    decide
  · rw [h]
    decide
  · rw [IsCancelled] at h
    rw [h]
    decide

/-- A last line is the last one that was printed. -/
theorem eq_append_of_last (h : ∀ l ∈ lines.dropLast, ¬IsLast l) (hline : line ∈ lines)
    (hlast : IsLast line) : lines = lines.dropLast ++ [line] := by
  have hne : lines ≠ [] := List.ne_nil_of_mem hline
  have hsplit := List.dropLast_append_getLast hne
  rw [← hsplit] at hline
  rcases List.mem_append.mp hline with hmem | hmem
  · exact absurd hlast (h line hmem)
  · rw [List.mem_singleton.mp hmem, hsplit]

theorem last_unique {line' : Text} (h : ∀ l ∈ lines.dropLast, ¬IsLast l) (hline : line ∈ lines)
    (hlast : IsLast line) (hline' : line' ∈ lines) (hlast' : IsLast line') : line = line' := by
  have he := (eq_append_of_last h hline hlast).symm.trans (eq_append_of_last h hline' hlast')
  simpa using he

/-- The warnings before a last line are all of them. -/
theorem warningsOf_take (h : ∀ l ∈ lines.dropLast, ¬IsLast l) (hlast : IsLast line) {i : ℕ}
    (hi : lines[i]? = some line) : warningsOf (lines.take i) = warningsOf lines := by
  have hmem : line ∈ lines := List.mem_of_getElem? hi
  have hlines := eq_append_of_last h hmem hlast
  have hlt : i < lines.length := (List.getElem?_eq_some_iff.mp hi).1
  have hidx : i = lines.dropLast.length := by
    by_contra hne
    have hlen : i < lines.dropLast.length := by
      rw [List.length_dropLast] at hne ⊢
      omega
    have hin : lines.dropLast[i]? = some line := by
      rw [List.getElem?_dropLast, if_pos (by rw [List.length_dropLast] at hlen; omega)]
      exact hi
    exact h line (List.mem_of_getElem? hin) hlast
  rw [hidx, List.dropLast_eq_take, List.length_take, min_eq_left (Nat.sub_le _ _),
    ← List.dropLast_eq_take]
  conv_rhs => rw [hlines]
  rw [warningsOf_append, warningsOf_of_ne hlast.ne_warning, List.append_nil]

/-! ### The variables -/

variable {s' : State} {f : Session → Session} {signal : Signal} {message : Text}

@[simp] theorem sessions_modify : (s.modify k f).sessions k = f (s.sessions k) :=
  Function.update_self ..

theorem sessions_modify_of_ne {j : ℕ} (h : j ≠ k) : (s.modify k f).sessions j = s.sessions j :=
  Function.update_of_ne h ..

/-- What happens to the session that runs, or ran last. -/
theorem Sound.change (h : Sound s) (hsession : s'.session = s.session)
    (hproc : ∀ p, s'.proc = some p → s.proc = some p)
    (htimer : ∀ p, s'.killTimer = some p → s'.proc = some p)
    (hothers : ∀ k, k ≠ s.session → s'.sessions k = s.sessions k)
    (hread : (s'.sessions s.session).read ≤ (s'.sessions s.session).printed.length)
    (hlast : ∀ line ∈ (s'.sessions s.session).printed.dropLast, ¬IsLast line)
    (hrunning : ∀ p, s'.proc = some p → Running s' (s'.sessions p))
    (hended : s'.proc = none → 0 < s.session → (s'.sessions s.session).signals ≠ [] ∨
      ∃ line ∈ (s'.sessions s.session).printed, IsCancelled line) : Sound s' := by
  refine ⟨fun p hp => ?_, htimer, fun k hk => ?_, fun k => ?_, fun k => ?_, hrunning,
    fun k hpos hk hne => ?_⟩
  · rw [hsession]
    exact h.proc p (hproc p hp)
  · rw [hsession] at hk
    rw [hothers k hk.ne']
    exact h.later k hk
  · by_cases hk : k = s.session
    · rw [hk]
      exact hread
    · rw [hothers k hk]
      exact h.read k
  · by_cases hk : k = s.session
    · rw [hk]
      exact hlast
    · rw [hothers k hk]
      exact h.last k
  · rw [hsession] at hk
    by_cases hk' : k = s.session
    · subst hk'
      refine hended ?_ hpos
      refine Option.eq_none_iff_forall_ne_some.mpr fun p hp => hne ?_
      rw [← (h.proc p (hproc p hp)).1]
      exact hp
    · rw [hothers k hk']
      exact h.ended k hpos hk fun hc => hk' (h.proc k hc).1

/-- What becomes of a session that begins. -/
theorem Sound.begin (h : Sound s) (hproc : s.proc = none) (hsession : s'.session = s.session + 1)
    (htimer : s'.killTimer = s.killTimer)
    (hothers : ∀ k, k ≠ s'.session → s'.sessions k = s.sessions k)
    (hnew : (s'.sessions s'.session).printed = [] ∧ (s'.sessions s'.session).read = 0)
    (hcase : s'.proc = none ∧ (s'.sessions s'.session).signals ≠ [] ∨
      s'.proc = some s'.session ∧ s'.reported = false ∧ s'.warnings = [] ∧
        (s'.sessions s'.session).signals = [] ∧ (s'.sessions s'.session).killed = false) :
    Sound s' := by
  have hnone (p : ℕ) : s'.killTimer ≠ some p := fun hp => by
    have hc := h.timer p (htimer ▸ hp)
    rw [hproc] at hc
    cases hc
  have hcurrent : ∀ p, s'.proc = some p → p = s'.session := by
    intro p hp
    rcases hcase with ⟨hn, _⟩ | ⟨hsome, _⟩
    · rw [hn] at hp
      cases hp
    · exact (Option.some.inj (hsome.symm.trans hp)).symm
  refine ⟨fun p hp => ?_, fun p hp => absurd hp (hnone p), fun k hk => ?_, fun k => ?_, fun k => ?_,
    fun p hp => ?_, fun k hpos hk hne => ?_⟩
  · rw [hcurrent p hp]
    exact ⟨rfl, by omega⟩
  · rw [hothers k hk.ne']
    exact h.later k (by omega)
  · by_cases hk : k = s'.session
    · rw [hk, hnew.1, hnew.2]
      exact Nat.zero_le _
    · rw [hothers k hk]
      exact h.read k
  · by_cases hk : k = s'.session
    · rw [hk, hnew.1]
      simp
    · rw [hothers k hk]
      exact h.last k
  · obtain rfl := hcurrent p hp
    rcases hcase with ⟨hn, _⟩ | ⟨_, hreported, hwarnings, hsignals, hkilled⟩
    · rw [hn] at hp
      cases hp
    · refine ⟨?_, fun _ => ⟨hsignals, hkilled, ?_⟩, fun hc => ?_⟩
      · rw [hwarnings, hnew.1, List.take_nil]
        rfl
      · rw [hnew.1]
        simp
      · rw [hreported] at hc
        cases hc
  · by_cases hk' : k = s'.session
    · rcases hcase with ⟨_, hsignals⟩ | ⟨hsome, _⟩
      · exact .inl (hk' ▸ hsignals)
      · exact absurd (hk' ▸ hsome) hne
    · rw [hothers k hk']
      exact h.ended k hpos (by omega) (by simp [hproc])

theorem reportFailure_of_reported (h : s.reported = true) : reportFailure message s = s :=
  if_pos h

theorem reportFailure_eq (h : s.reported = false) :
    reportFailure message s = emit (.failed message) { s with reported := true } :=
  if_neg (by simp [h])

theorem sessions_emit : (emit signal s).sessions s.session =
    { s.sessions s.session with signals := (s.sessions s.session).signals ++ [signal] } :=
  sessions_modify

theorem sessions_emit_of_ne (h : k ≠ s.session) : (emit signal s).sessions k = s.sessions k :=
  sessions_modify_of_ne h

/-- A start that fails is reported. -/
theorem Sound.fails (h : Sound s) (hproc : s.proc = none) : Sound (reportFailure message { s with
    warnings := [], reported := false, outputPath := none, session := s.session + 1 }) := by
  rw [reportFailure_eq rfl]
  refine h.begin hproc rfl rfl (fun k hk => sessions_emit_of_ne hk) ?_ (.inl ⟨hproc, ?_⟩)
  · refine ⟨?_, ?_⟩
    · exact (congrArg Session.printed sessions_emit).trans
        (congrArg Session.printed (h.later _ (Nat.lt_succ_self _)))
    · exact (congrArg Session.read sessions_emit).trans
        (congrArg Session.read (h.later _ (Nat.lt_succ_self _)))
  · exact fun hc => absurd ((congrArg Session.signals sessions_emit).symm.trans hc) (by simp)

theorem sound_start (h : Sound s) (launch : Launch) : Sound (start launch s) := by
  rw [start]
  by_cases hproc : s.proc = none
  · rw [if_neg (by simp [hproc])]
    cases launch with
    | noFolder message => exact h.fails hproc
    | noProcess message => exact h.fails hproc
    | launched =>
      have hnew : s.sessions (s.session + 1) = {} := h.later _ (Nat.lt_succ_self _)
      refine h.begin hproc rfl rfl (fun _ _ => rfl) ⟨?_, ?_⟩ (.inr ⟨rfl, rfl, rfl, ?_, ?_⟩)
      · exact congrArg Session.printed hnew
      · exact congrArg Session.read hnew
      · exact congrArg Session.signals hnew
      · exact congrArg Session.killed hnew
  · rw [if_pos hproc]
    exact h

theorem sound_stop (h : Sound s) : Sound (stop s) := by
  rw [stop]
  split
  · exact h
  · refine ⟨h.proc, fun p hp => ?_, h.later, h.read, h.last, fun p hp => ?_, h.ended⟩
    · dsimp only at hp
      split at hp
      · exact hp
      · exact h.timer p hp
    · obtain ⟨hwarnings, hunreported, hreported⟩ := h.running p hp
      exact ⟨hwarnings, hunreported, hreported⟩

theorem sound_print (h : Sound s) : Sound (print p line s) := by
  rw [print]
  by_cases hprints : s.proc = some p ∧ ∀ l ∈ (s.sessions p).printed, ¬IsLast l
  · rw [if_pos hprints]
    obtain ⟨hproc, hnone⟩ := hprints
    obtain ⟨rfl, hpos⟩ := h.proc p hproc
    have hread := h.read s.session
    refine h.change rfl (fun _ => id) h.timer (fun k hk => sessions_modify_of_ne hk) ?_ ?_
      (fun q hq => ?_) (fun hc => ?_)
    · rw [sessions_modify, List.length_append]
      exact Nat.le_add_right_of_le hread
    · rw [sessions_modify, List.dropLast_concat]
      exact hnone
    · obtain rfl : s.session = q := Option.some.inj (hproc.symm.trans hq)
      obtain ⟨hwarnings, hunreported, hreported⟩ := h.running _ hproc
      rw [sessions_modify]
      refine ⟨?_, ?_, fun hr => ⟨?_, ?_⟩⟩
      · rw [List.take_append_of_le_length hread]
        exact hwarnings
      · rw [List.take_append_of_le_length hread]
        exact hunreported
      · rw [List.take_append_of_le_length hread]
        exact (hreported hr).1
      · refine (hreported hr).2.imp_right ?_
        rintro ⟨l, hl, hc⟩
        exact ⟨l, List.mem_append_left _ hl, hc⟩
    · rw [State.modify, hproc] at hc
      cases hc
  · rw [if_neg hprints]
    exact h

/-! ### Reading -/

/-- What a line of the process that runs leads to. -/
structure Heard (s t : State) (line : Text) : Prop where
  session : t.session = s.session
  proc : t.proc = s.proc
  killTimer : t.killTimer = s.killTimer
  lost : t.lost = s.lost
  others : ∀ k, k ≠ s.session → t.sessions k = s.sessions k
  printed : (t.sessions s.session).printed = (s.sessions s.session).printed
  read : (t.sessions s.session).read = (s.sessions s.session).read + 1
  killed : (t.sessions s.session).killed = (s.sessions s.session).killed
  warnings : t.warnings = s.warnings ++ warningsOf [line]
  outcome :
    (t.reported = s.reported ∧ (t.sessions s.session).signals = (s.sessions s.session).signals ∧
      (s.reported = false → ¬IsLast line)) ∨
    (s.reported = false ∧ t.reported = true ∧
      (IsSaved line ∧ (t.sessions s.session).signals =
          (s.sessions s.session).signals ++ [.finished (rest line) s.warnings] ∨
        verb line = ofString "error" ∧ (t.sessions s.session).signals =
          (s.sessions s.session).signals ++ [.failed (rest line)] ∨
        IsCancelled line ∧ (t.sessions s.session).signals = (s.sessions s.session).signals))

/-- One line less is to be delivered. -/
def readOne (session : Session) : Session := { session with read := session.read + 1 }

/-- A line that is not reported. -/
theorem Heard.quiet {t u : State} (ht : t = s.modify s.session readOne)
    (hsessions : u.sessions = t.sessions) (hsession : u.session = t.session)
    (hproc : u.proc = t.proc)
    (htimer : u.killTimer = t.killTimer) (hlost : u.lost = t.lost)
    (hwarnings : u.warnings = t.warnings ++ warningsOf [line])
    (houtcome : u.reported = t.reported ∧ (t.reported = false → ¬IsLast line) ∨
      t.reported = false ∧ u.reported = true ∧ IsCancelled line) : Heard s u line := by
  subst ht
  have hk : u.sessions s.session = readOne (s.sessions s.session) := by
    rw [hsessions, sessions_modify]
  refine ⟨hsession, hproc, htimer, hlost, fun k hne => ?_, ?_, ?_, ?_, hwarnings, ?_⟩
  · rw [hsessions, sessions_modify_of_ne hne]
  · rw [hk]
    rfl
  · rw [hk]
    rfl
  · rw [hk]
    rfl
  · rw [hk]
    rcases houtcome with ⟨hsame, hlast⟩ | ⟨hfalse, htrue, hline⟩
    · exact .inl ⟨hsame, rfl, hlast⟩
    · exact .inr ⟨hfalse, htrue, .inr (.inr ⟨hline, rfl⟩)⟩

/-- A line that is reported. -/
theorem Heard.loud {t : State} (ht : t = s.modify s.session readOne)
    (hreported : t.reported = false) (hline : verb line ≠ ofString "warning")
    (hsignal : IsSaved line ∧ signal = .finished (rest line) t.warnings ∨
      verb line = ofString "error" ∧ signal = .failed (rest line)) :
    Heard s (emit signal { t with reported := true }) line := by
  subst ht
  have hk : (emit signal { s.modify s.session readOne with reported := true }).sessions s.session =
      { readOne (s.sessions s.session) with
        signals := (s.sessions s.session).signals ++ [signal] } := by
    refine sessions_emit.trans ?_
    dsimp only [State.modify]
    rw [Function.update_self]
    rfl
  refine ⟨rfl, rfl, rfl, rfl, fun k hne => ?_, ?_, ?_, ?_, ?_, .inr ⟨hreported, rfl, ?_⟩⟩
  · refine (sessions_emit_of_ne ?_).trans ?_
    · exact hne
    · exact sessions_modify_of_ne hne
  · rw [hk]
    rfl
  · rw [hk]
    rfl
  · rw [hk]
    rfl
  · rw [warningsOf_of_ne hline, List.append_nil]
    rfl
  · rw [hk]
    rcases hsignal with ⟨hsaved, rfl⟩ | ⟨herror, rfl⟩
    · exact .inl ⟨hsaved, rfl⟩
    · exact .inr (.inl ⟨herror, rfl⟩)

theorem handleStatus_of_ne (h : s.proc ≠ some p) :
    handleStatus p line (s.modify p readOne) = s.modify p readOne :=
  if_pos h

theorem heard_handleStatus (h : s.proc = some s.session) :
    Heard s (handleStatus s.session line (s.modify s.session readOne)) line := by
  obtain ⟨t, ht⟩ : ∃ t, t = s.modify s.session readOne := ⟨_, rfl⟩
  have htproc : t.proc = some s.session := ht ▸ h
  rw [← ht, handleStatus, if_neg (not_not.mpr htproc)]
  have hother (hw : verb line ≠ ofString "warning") :
      t.warnings = t.warnings ++ warningsOf [line] := by
    rw [warningsOf_of_ne hw, List.append_nil]
  by_cases hrecording : verb line = ofString "recording"
  · rw [if_pos hrecording]
    refine .quiet ht rfl rfl rfl rfl rfl (hother ?_) (.inl ⟨rfl, fun _ => ?_⟩)
    · rw [hrecording]
      decide
    · rw [IsLast, IsSaved, IsCancelled, hrecording]
      decide
  rw [if_neg hrecording]
  by_cases hwarning : verb line = ofString "warning"
  · rw [if_pos hwarning]
    refine .quiet ht rfl rfl rfl rfl rfl ?_ (.inl ⟨rfl, fun _ hlast => hlast.ne_warning hwarning⟩)
    simp [warningsOf, hwarning]
  rw [if_neg hwarning]
  by_cases hsaved : verb line = ofString "saved"
  · rw [if_pos hsaved]
    cases hreported : t.reported with
    | true =>
      exact .quiet ht rfl rfl rfl rfl rfl (hother hwarning) (.inl ⟨rfl, by simp [hreported]⟩)
    | false => exact .loud ht hreported hwarning (.inl ⟨hsaved, rfl⟩)
  rw [if_neg hsaved]
  by_cases herror : verb line = ofString "error"
  · rw [if_pos herror]
    cases hreported : t.reported with
    | true =>
      rw [reportFailure_of_reported hreported]
      exact .quiet ht rfl rfl rfl rfl rfl (hother hwarning) (.inl ⟨rfl, by simp [hreported]⟩)
    | false =>
      rw [reportFailure_eq hreported]
      exact .loud ht hreported hwarning (.inr ⟨herror, rfl⟩)
  rw [if_neg herror]
  by_cases hcancelled : verb line = ofString "cancelled"
  · rw [if_pos hcancelled]
    refine .quiet ht rfl rfl rfl rfl rfl (hother hwarning) ?_
    cases hreported : t.reported with
    | true => exact .inl ⟨rfl, fun hc => absurd hc (by simp)⟩
    | false => exact .inr ⟨rfl, rfl, hcancelled⟩
  · rw [if_neg hcancelled]
    refine .quiet ht rfl rfl rfl rfl rfl (hother hwarning) (.inl ⟨rfl, fun _ hlast => ?_⟩)
    rcases hlast with hlast | hlast | hlast
    · exact hsaved hlast
    · exact herror hlast
    · exact hcancelled hlast

/-- What the delivery of a line comes to. -/
theorem readStatus_cases (h : Sound s) (p : ℕ) : readStatus p s = s ∨
    (s.sessions p).read < (s.sessions p).printed.length ∧ s.proc ≠ some p ∧
      readStatus p s = s.modify p readOne ∨
    ∃ line, p = s.session ∧ s.proc = some s.session ∧
      (s.sessions p).printed[(s.sessions p).read]? = some line ∧ Heard s (readStatus p s) line := by
  rw [readStatus]
  cases hline : (s.sessions p).printed[(s.sessions p).read]? with
  | none => exact .inl rfl
  | some line =>
    dsimp only
    by_cases hvalid : Utf8.validate line
    · rw [if_pos hvalid]
      by_cases hproc : s.proc = some p
      · obtain ⟨rfl, _⟩ := h.proc p hproc
        exact .inr (.inr ⟨line, rfl, hproc, rfl, heard_handleStatus hproc⟩)
      · refine .inr (.inl ⟨(List.getElem?_eq_some_iff.mp hline).1, hproc, ?_⟩)
        exact handleStatus_of_ne hproc
    · rw [if_neg hvalid]
      exact .inl rfl

/-- A line that is heard keeps what is known of the session. -/
theorem Running.hear {t : State} (h : Running s (s.sessions s.session))
    (hline : (s.sessions s.session).printed[(s.sessions s.session).read]? = some line)
    (ht : Heard s t line) : Running t (t.sessions s.session) := by
  have htake : (t.sessions s.session).printed.take (t.sessions s.session).read =
      (s.sessions s.session).printed.take (s.sessions s.session).read ++ [line] := by
    rw [ht.printed, ht.read, List.take_add_one, hline]
    rfl
  obtain ⟨hwarnings, hunreported, hreported⟩ := h
  refine ⟨?_, fun hr => ?_, fun hr => ?_⟩
  · rw [htake, warningsOf_append, ← hwarnings]
    exact ht.warnings
  · rcases ht.outcome with ⟨hsame, hsignals, hnot⟩ | ⟨_, htrue, _⟩
    · obtain ⟨hnone, hkilled, hlines⟩ := hunreported (hsame ▸ hr)
      refine ⟨hsignals.trans hnone, ht.killed.trans hkilled, fun l hl => ?_⟩
      rw [htake] at hl
      rcases List.mem_append.mp hl with hl | hl
      · exact hlines l hl
      · rw [List.mem_singleton.mp hl]
        exact hnot (hsame ▸ hr)
    · rw [htrue] at hr
      cases hr
  · rw [htake, ht.printed, ht.killed]
    rcases ht.outcome with ⟨hsame, hsignals, _⟩ | ⟨hfalse, _, hcase⟩
    · obtain ⟨hwhy, hwhat⟩ := hreported (hsame ▸ hr)
      refine ⟨hwhy.imp_right ?_, ?_⟩
      · rintro ⟨l, hl, hlast⟩
        exact ⟨l, List.mem_append_left _ hl, hlast⟩
      · rw [hsignals]
        exact hwhat
    · have hmem : line ∈ (s.sessions s.session).printed := List.mem_of_getElem? hline
      have hin : line ∈ (s.sessions s.session).printed.take (s.sessions s.session).read ++ [line] :=
        List.mem_append_right _ (List.mem_singleton.mpr rfl)
      rcases hcase with ⟨hsaved, hsignals⟩ | ⟨herror, hsignals⟩ | ⟨hcancelled, hsignals⟩
      · exact ⟨.inr ⟨line, hin, hsaved.isLast⟩, .inl (by simp [hsignals])⟩
      · exact ⟨.inr ⟨line, hin, .inr (.inl herror)⟩, .inl (by simp [hsignals])⟩
      · exact ⟨.inr ⟨line, hin, hcancelled.isLast⟩, .inr ⟨line, hmem, hcancelled⟩⟩

/-- A line of a process that is not known any more is delivered to nobody. -/
theorem Sound.readOne (h : Sound s) (hlt : (s.sessions p).read < (s.sessions p).printed.length)
    (hproc : s.proc ≠ some p) : Sound (s.modify p readOne) := by
  have hsame (k : ℕ) : ((s.modify p ScreenRecorder.readOne).sessions k).printed =
      (s.sessions k).printed ∧ ((s.modify p ScreenRecorder.readOne).sessions k).signals =
        (s.sessions k).signals := by
    by_cases hk : k = p
    · rw [hk, sessions_modify]
      exact ⟨rfl, rfl⟩
    · rw [sessions_modify_of_ne hk]
      exact ⟨rfl, rfl⟩
  refine ⟨h.proc, h.timer, fun k hk => ?_, fun k => ?_, fun k => ?_, fun q hq => ?_,
    fun k hpos hk hne => ?_⟩
  · rw [sessions_modify_of_ne]
    · exact h.later k hk
    · rintro rfl
      rw [h.later k hk] at hlt
      exact absurd hlt (Nat.lt_irrefl 0)
  · by_cases hk : k = p
    · rw [hk, sessions_modify]
      exact hlt
    · rw [sessions_modify_of_ne hk]
      exact h.read k
  · rw [(hsame k).1]
    exact h.last k
  · have hne : q ≠ p := by
      rintro rfl
      exact hproc hq
    rw [sessions_modify_of_ne hne]
    obtain ⟨hwarnings, hunreported, hreported⟩ := h.running q hq
    exact ⟨hwarnings, hunreported, hreported⟩
  · rw [(hsame k).1, (hsame k).2]
    exact h.ended k hpos hk hne

theorem sound_readStatus (h : Sound s) : Sound (readStatus p s) := by
  rcases readStatus_cases h p with heq | ⟨hlt, hproc, heq⟩ | ⟨line, rfl, hproc, hline, hheard⟩
  · rw [heq]
    exact h
  · rw [heq]
    exact h.readOne hlt hproc
  · have hlt := (List.getElem?_eq_some_iff.mp hline).1
    refine h.change hheard.session (fun q hq => hheard.proc ▸ hq) (fun q hq => ?_) hheard.others
      ?_ ?_ (fun q hq => ?_) (fun hc => ?_)
    · rw [hheard.proc]
      exact h.timer q (hheard.killTimer ▸ hq)
    · rw [hheard.read, hheard.printed]
      exact hlt
    · rw [hheard.printed]
      exact h.last s.session
    · obtain rfl : s.session = q := Option.some.inj (hproc.symm.trans (hheard.proc ▸ hq))
      exact (h.running _ hproc).hear hline hheard
    · rw [hheard.proc, hproc] at hc
      cases hc

/-! ### The exit, and the kill timer -/

theorem onExit_of_ne {empty : Bool} (h : s.proc ≠ some p) : onExit p empty s = s :=
  if_pos h

/-- The exit of the process that runs. -/
structure Exited (s t : State) (empty : Bool) : Prop where
  session : t.session = s.session
  proc : t.proc = none
  killTimer : t.killTimer = none
  others : ∀ k, k ≠ s.session → t.sessions k = s.sessions k
  reported : s.reported = true → t.sessions s.session = s.sessions s.session ∧ t.lost = s.lost
  unreported : s.reported = false →
    (∃ message, t.sessions s.session = { s.sessions s.session with
      signals := (s.sessions s.session).signals ++ [.failed message] }) ∧
      t.lost = s.lost ++ (discarded empty s).filter fun path => Announced s path

theorem exited_onExit (h : s.proc = some s.session) (empty : Bool) :
    Exited s (onExit s.session empty s) empty := by
  rw [onExit, if_neg (not_not.mpr h)]
  dsimp only
  cases hreported : s.reported with
  | true =>
    rw [if_pos rfl]
    refine ⟨rfl, rfl, rfl, fun _ _ => rfl, fun _ => ⟨rfl, rfl⟩, fun hc => ?_⟩
    rw [hreported] at hc
    cases hc
  | false =>
    rw [if_neg Bool.false_ne_true, reportFailure_eq rfl]
    refine ⟨rfl, rfl, rfl, fun k hk => ?_, fun hc => ?_, fun _ => ⟨⟨_, sessions_emit⟩, rfl⟩⟩
    · refine (sessions_emit_of_ne ?_).trans rfl
      exact hk
    · rw [hreported] at hc
      cases hc

theorem sound_onExit (h : Sound s) (empty : Bool) : Sound (onExit p empty s) := by
  by_cases hproc : s.proc = some p
  · obtain ⟨rfl, hpos⟩ := h.proc p hproc
    have ht := exited_onExit hproc empty
    have hrunning := h.running _ hproc
    have hprinted : ((onExit s.session empty s).sessions s.session).printed =
        (s.sessions s.session).printed ∧ ((onExit s.session empty s).sessions s.session).read =
          (s.sessions s.session).read := by
      cases hreported : s.reported with
      | true =>
        rw [(ht.reported hreported).1]
        exact ⟨rfl, rfl⟩
      | false =>
        obtain ⟨⟨message, hsession⟩, _⟩ := ht.unreported hreported
        rw [hsession]
        exact ⟨rfl, rfl⟩
    refine h.change ht.session (fun q hq => ?_) (fun q hq => ?_) ht.others ?_ ?_ (fun q hq => ?_)
      (fun _ _ => ?_)
    · rw [ht.proc] at hq
      cases hq
    · rw [ht.killTimer] at hq
      cases hq
    · rw [hprinted.1, hprinted.2]
      exact h.read _
    · rw [hprinted.1]
      exact h.last _
    · rw [ht.proc] at hq
      cases hq
    · cases hreported : s.reported with
      | true =>
        rw [(ht.reported hreported).1]
        exact (hrunning.reported hreported).2
      | false =>
        obtain ⟨⟨message, hsession⟩, _⟩ := ht.unreported hreported
        rw [hsession]
        exact .inl (by simp)
  · rw [onExit_of_ne hproc]
    exact h

/-- The timer has fired when nothing had been reported of the process that runs. -/
structure Expired (s t : State) : Prop where
  session : t.session = s.session
  proc : t.proc = s.proc
  killTimer : t.killTimer = none
  others : ∀ k, k ≠ s.session → t.sessions k = s.sessions k
  current : ∃ message, t.sessions s.session = { s.sessions s.session with
    killed := true, signals := (s.sessions s.session).signals ++ [.failed message] }
  reported : t.reported = true
  warnings : t.warnings = s.warnings
  lost : t.lost = s.lost

theorem onKillTimer_cases (h : Sound s) :
    onKillTimer s = { s with killTimer := none } ∧
        (∀ p, s.killTimer = some p → s.reported = true) ∨
      s.killTimer = some s.session ∧ s.proc = some s.session ∧ s.reported = false ∧
        Expired s (onKillTimer s) := by
  rw [onKillTimer]
  cases htimer : s.killTimer with
  | none =>
    refine .inl ⟨?_, fun p hp => ?_⟩
    · cases s
      cases htimer
      rfl
    · cases hp
  | some p =>
    dsimp only
    have hproc := h.timer p htimer
    obtain ⟨rfl, _⟩ := h.proc p hproc
    by_cases hreported : s.reported = false
    · rw [if_pos ⟨hproc, hreported⟩, reportFailure_eq (by exact hreported)]
      refine .inr ⟨rfl, hproc, hreported, rfl, rfl, rfl, fun k hk => ?_,
        ⟨ofString "The screen recorder did not finish saving the video.", ?_⟩, rfl, rfl, rfl⟩
      · refine (sessions_emit_of_ne ?_).trans ?_
        · exact hk
        · exact Function.update_of_ne hk ..
      · refine sessions_emit.trans ?_
        dsimp only [State.modify]
        rw [Function.update_self]
    · rw [if_neg fun hc => hreported hc.2]
      exact .inl ⟨rfl, fun _ _ => by simpa using hreported⟩

theorem sound_onKillTimer (h : Sound s) : Sound (onKillTimer s) := by
  rcases onKillTimer_cases h with ⟨heq, _⟩ | ⟨htimer, hproc, hreported, ht⟩
  · rw [heq]
    refine ⟨h.proc, fun p hp => ?_, h.later, h.read, h.last, fun p hp => ?_, h.ended⟩
    · cases hp
    obtain ⟨hwarnings, hunreported, hreported⟩ := h.running p hp
    exact ⟨hwarnings, hunreported, hreported⟩
  · obtain ⟨message, hcurrent⟩ := ht.current
    refine h.change ht.session (fun q hq => ht.proc ▸ hq) (fun q hq => ?_) ht.others ?_ ?_
      (fun q hq => ?_) (fun hc => ?_)
    · rw [ht.killTimer] at hq
      cases hq
    · rw [hcurrent]
      exact h.read _
    · rw [hcurrent]
      exact h.last _
    · obtain rfl : s.session = q := Option.some.inj (hproc.symm.trans (ht.proc ▸ hq))
      rw [hcurrent]
      refine ⟨?_, fun hc => ?_, fun _ => ⟨.inl rfl, .inl (by simp)⟩⟩
      · rw [ht.warnings]
        exact (h.running _ hproc).warnings
      · rw [ht.reported] at hc
        cases hc
    · rw [ht.proc, hproc] at hc
      cases hc

/-- One event keeps the variables in order. -/
theorem sound_step (h : Sound s) (e : Event) : Sound (step s e) := by
  cases e with
  | start launch => exact sound_start h launch
  | stop => exact sound_stop h
  | printed p line => exact sound_print h
  | delivered p => exact sound_readStatus h
  | exited p empty => exact sound_onExit h empty
  | killTimer => exact sound_onKillTimer h

theorem sound_initial : Sound {} := by
  refine ⟨fun p hp => ?_, fun p hp => ?_, fun k _ => rfl, fun k => le_rfl, fun k l hl => ?_,
    fun p hp => ?_, fun k hpos hk => ?_⟩
  · cases hp
  · cases hp
  · exact absurd hl (List.not_mem_nil)
  · cases hp
  · exact absurd hk (Nat.not_le.mpr hpos)

/-! ### What is meant -/

/-- What an earlier process does has no effect. -/
theorem Sound.stale (h : Sound s) : ∀ p < s.session, s.killTimer ≠ some p ∧
    (∀ empty, onExit p empty s = s) ∧ { readStatus p s with sessions := s.sessions } = s ∧
      ∀ k, ((readStatus p s).sessions k).signals = (s.sessions k).signals := by
  intro p hp
  have hproc : s.proc ≠ some p := fun hc => hp.ne (h.proc p hc).1
  refine ⟨fun hc => hproc (h.timer p hc), fun empty => onExit_of_ne hproc, ?_⟩
  rcases readStatus_cases h p with heq | ⟨hlt, _, heq⟩ | ⟨line, rfl, hc, _⟩
  · rw [heq]
    exact ⟨rfl, fun _ => rfl⟩
  · rw [heq]
    refine ⟨rfl, fun k => ?_⟩
    by_cases hk : k = p
    · rw [hk, sessions_modify]
      rfl
    · rw [sessions_modify_of_ne hk]
  · exact absurd hp (Nat.lt_irrefl _)

/-- What is meant for one session. -/
structure Session.Told (session : Session) : Prop where
  once : session.signals.length ≤ 1
  cancelled : (∃ line ∈ session.printed, IsCancelled line) → session.signals = []
  saved : ∀ line ∈ session.printed, IsSaved line → session.killed = false →
    ∀ signal ∈ session.signals, signal = .finished (rest line) (warningsOf session.printed)

/-- What is meant is said of each session, where the variables are in order. -/
theorem reports_iff_told (h : Sound s) :
    Reports s ↔ (∀ k, (s.sessions k).Told) ∧ s.lost = [] := by
  constructor
  · intro hr
    exact ⟨fun k => ⟨hr.once k, hr.cancelled k, hr.saved k⟩, hr.kept⟩
  · rintro ⟨htold, hkept⟩
    refine ⟨fun k => (htold k).once, fun k => (htold k).cancelled, fun k hpos hk hne _ hlines => ?_,
      fun k => (htold k).saved, hkept, h.stale⟩
    rcases h.ended k hpos hk hne with hsignals | ⟨line, hline, hc⟩
    · exact le_antisymm (htold k).once (List.length_pos_iff.mpr hsignals)
    · exact absurd hc (hlines line hline)

/-- One session changes. -/
theorem told_iff_of_others {s' : State} (h : ∀ k, (s.sessions k).Told)
    (hothers : ∀ k, k ≠ p → s'.sessions k = s.sessions k) :
    (∀ k, (s'.sessions k).Told) ↔ (s'.sessions p).Told := by
  refine ⟨fun h' => h' p, fun h' k => ?_⟩
  by_cases hk : k = p
  · rw [hk]
    exact h'
  · rw [hothers k hk]
    exact h k

theorem Session.Told.congr {session session' : Session} (h : session.Told)
    (hprinted : session'.printed = session.printed) (hsignals : session'.signals = session.signals)
    (hkilled : session'.killed = session.killed) : session'.Told := by
  obtain ⟨honce, hcancelled, hsaved⟩ := h
  rw [← hsignals] at honce
  rw [← hprinted, ← hsignals] at hcancelled
  rw [← hprinted, ← hsignals, ← hkilled] at hsaved
  exact ⟨honce, hcancelled, hsaved⟩

/-- A failure is what is meant when no line says otherwise. -/
theorem told_failed_iff {session : Session} (h : session.signals = [.failed message]) :
    session.Told ↔ (∀ line ∈ session.printed, ¬IsCancelled line) ∧
      (session.killed = false → ∀ line ∈ session.printed, ¬IsSaved line) := by
  constructor
  · rintro ⟨-, hcancelled, hsaved⟩
    refine ⟨fun line hline hc => ?_, fun hkilled line hline hc => ?_⟩
    · rw [hcancelled ⟨line, hline, hc⟩] at h
      cases h
    · have hsignal := hsaved line hline hc hkilled (.failed message) (by simp [h])
      cases hsignal
  · rintro ⟨hcancelled, hsaved⟩
    refine ⟨by simp [h], ?_, fun line hline hc hkilled => absurd hc (hsaved hkilled line hline)⟩
    rintro ⟨line, hline, hc⟩
    exact absurd hc (hcancelled line hline)

/-- While nothing is reported, a last line is still to be delivered. -/
theorem forall_unread {P : Text → Prop} (hP : ∀ line, P line → IsLast line) (h : Sound s)
    (hproc : s.proc = some p) (hreported : s.reported = false) :
    (∀ line ∈ (s.sessions p).printed, ¬P line) ↔ ∀ line ∈ unread s p, ¬P line := by
  refine ⟨fun hlines line hline => hlines line (List.mem_of_mem_drop hline),
    fun hlines line hline hc => ?_⟩
  rw [← List.take_append_drop (s.sessions p).read (s.sessions p).printed] at hline
  rcases List.mem_append.mp hline with hline | hline
  · exact ((h.running p hproc).unreported hreported).2.2 line hline (hP line hc)
  · exact hlines line hline hc

/-- The outcome that a line tells is reported. -/
theorem Session.Told.hear {t : State} (h : Sound s) (hproc : s.proc = some s.session)
    (hline : (s.sessions s.session).printed[(s.sessions s.session).read]? = some line)
    (ht : Heard s t line) (htold : (s.sessions s.session).Told) :
    (t.sessions s.session).Told := by
  have hmem : line ∈ (s.sessions s.session).printed := List.mem_of_getElem? hline
  have hunique (l : Text) (hl : l ∈ (s.sessions s.session).printed) (hlast : IsLast l)
      (hlast' : IsLast line) : l = line := last_unique (h.last _) hl hlast hmem hlast'
  have hrunning := h.running _ hproc
  rcases ht.outcome with ⟨_, hsignals, _⟩ | ⟨hreported, _, hcase⟩
  · exact htold.congr ht.printed hsignals ht.killed
  · have hnone := (hrunning.unreported hreported).1
    rw [hnone, List.nil_append] at hcase
    rcases hcase with ⟨hsaved, hsignals⟩ | ⟨herror, hsignals⟩ | ⟨_, hsignals⟩
    · have hwarnings : s.warnings = warningsOf (s.sessions s.session).printed := by
        rw [hrunning.warnings, warningsOf_take (h.last _) hsaved.isLast hline]
      refine ⟨by simp [hsignals], ?_, fun l hl hl' _ signal hsignal => ?_⟩
      · rw [ht.printed]
        rintro ⟨l, hl, hc⟩
        rw [hunique l hl hc.isLast hsaved.isLast] at hc
        exact absurd hc hsaved.ne_cancelled
      · rw [ht.printed] at hl ⊢
        rw [hsignals] at hsignal
        rw [List.mem_singleton.mp hsignal, hunique l hl hl'.isLast hsaved.isLast, hwarnings]
    · have hlast : IsLast line := .inr (.inl herror)
      rw [told_failed_iff hsignals, ht.printed]
      refine ⟨fun l hl hc => ?_, fun _ l hl hc => ?_⟩
      · rw [hunique l hl hc.isLast hlast, IsCancelled, herror] at hc
        exact absurd hc (by decide)
      · rw [hunique l hl hc.isLast hlast, IsSaved, herror] at hc
        exact absurd hc (by decide)
    · exact htold.congr ht.printed (hsignals.trans hnone.symm) ht.killed

/-- A start that fails is told. -/
theorem told_fails (h : Sound s) (htold : ∀ k, (s.sessions k).Told) {t : State}
    (hsession : t.session = s.session + 1) (hsessions : t.sessions = s.sessions)
    (hreported : t.reported = false) : ∀ k, ((reportFailure message t).sessions k).Told := by
  rw [reportFailure_eq hreported]
  have hothers (k : ℕ) (hk : k ≠ s.session + 1) :
      (emit (.failed message) { t with reported := true }).sessions k = s.sessions k := by
    rw [sessions_emit_of_ne, hsessions]
    exact fun hc => hk (hc.trans hsession)
  have hnew : (emit (.failed message) { t with reported := true }).sessions (s.session + 1) =
      ({ signals := [.failed message] } : Session) := by
    rw [← hsession]
    refine sessions_emit.trans ?_
    dsimp only
    rw [hsessions, hsession, h.later _ (Nat.lt_succ_self _)]
    rfl
  rw [told_iff_of_others htold hothers, hnew, told_failed_iff rfl]
  exact ⟨fun l hl => absurd hl List.not_mem_nil, fun _ l hl => absurd hl List.not_mem_nil⟩

theorem told_start (h : Sound s) (htold : ∀ k, (s.sessions k).Told) (launch : Launch) :
    ∀ k, ((start launch s).sessions k).Told := by
  rw [start]
  split
  · exact htold
  · cases launch with
    | noFolder message => exact told_fails h htold rfl rfl rfl
    | noProcess message => exact told_fails h htold rfl rfl rfl
    | launched => exact htold

theorem lost_start (launch : Launch) : (start launch s).lost = s.lost := by
  rw [start]
  split
  · rfl
  · cases launch with
    | noFolder message => rfl
    | noProcess message => rfl
    | launched => rfl

theorem stop_eq_sessions : (stop s).sessions = s.sessions ∧ (stop s).lost = s.lost := by
  rw [stop]
  split
  · exact ⟨rfl, rfl⟩
  · exact ⟨rfl, rfl⟩

theorem told_print_iff (h : Sound s) (htold : ∀ k, (s.sessions k).Told) :
    (∀ k, ((print p line s).sessions k).Told) ↔ Timely s (.printed p line) := by
  rw [print, Timely]
  by_cases hprints : s.proc = some p ∧ ∀ l ∈ (s.sessions p).printed, ¬IsLast l
  · rw [if_pos hprints, told_iff_of_others htold fun k hk => sessions_modify_of_ne hk,
      sessions_modify]
    obtain ⟨hproc, hnone⟩ := hprints
    constructor
    · rintro ⟨-, hcancelled, -⟩ _ _ hc
      exact hcancelled ⟨line, by simp, hc⟩
    · intro htimely
      refine ⟨(htold p).once, ?_, fun l hl hsaved hkilled signal hsignal => ?_⟩
      · rintro ⟨l, hl, hc⟩
        rcases List.mem_append.mp hl with hl | hl
        · exact absurd hc.isLast (hnone l hl)
        · exact htimely hproc hnone (List.mem_singleton.mp hl ▸ hc)
      · dsimp only at hkilled hsignal
        cases hreported : s.reported with
        | false =>
          rw [((h.running p hproc).unreported hreported).1] at hsignal
          exact absurd hsignal List.not_mem_nil
        | true =>
          -- Nothing but the timer can have reported a process that has not printed its last line.
          rcases ((h.running p hproc).reported hreported).1 with hc | ⟨l, hl, hlast⟩
          · rw [hkilled] at hc
            cases hc
          · exact absurd hlast (hnone l (List.mem_of_mem_take hl))
  · rw [if_neg hprints]
    exact ⟨fun _ hproc hnone => absurd ⟨hproc, hnone⟩ hprints, fun _ => htold⟩

theorem lost_print : (print p line s).lost = s.lost := by
  rw [print]
  split
  · rfl
  · rfl

theorem told_readStatus (h : Sound s) (htold : ∀ k, (s.sessions k).Told) (p : ℕ) :
    (∀ k, ((readStatus p s).sessions k).Told) ∧ (readStatus p s).lost = s.lost := by
  rcases readStatus_cases h p with heq | ⟨_, _, heq⟩ | ⟨line, rfl, hproc, hline, hheard⟩
  · rw [heq]
    exact ⟨htold, rfl⟩
  · rw [heq]
    refine ⟨(told_iff_of_others htold fun k hk => sessions_modify_of_ne hk).mpr ?_, rfl⟩
    rw [sessions_modify]
    exact (htold p).congr rfl rfl rfl
  · refine ⟨(told_iff_of_others htold hheard.others).mpr ?_, hheard.lost⟩
    exact (htold s.session).hear h hproc hline hheard

theorem told_onExit_iff (h : Sound s) (htold : ∀ k, (s.sessions k).Told) (hkept : s.lost = [])
    (empty : Bool) : ((∀ k, ((onExit p empty s).sessions k).Told) ∧ (onExit p empty s).lost = []) ↔
      Timely s (.exited p empty) := by
  rw [Timely]
  by_cases hproc : s.proc = some p
  · obtain ⟨rfl, _⟩ := h.proc p hproc
    have ht := exited_onExit hproc empty
    rw [told_iff_of_others htold ht.others]
    cases hreported : s.reported with
    | true =>
      obtain ⟨hsession, hlost⟩ := ht.reported hreported
      rw [hsession, hlost]
      exact ⟨fun _ _ hc => absurd hc (by simp), fun _ => ⟨htold _, hkept⟩⟩
    | false =>
      obtain ⟨⟨message, hsession⟩, hlost⟩ := ht.unreported hreported
      obtain ⟨hnone, hkilled, _⟩ := (h.running _ hproc).unreported hreported
      rw [hnone, List.nil_append] at hsession
      rw [told_failed_iff (congrArg Session.signals hsession), hsession, hlost, hkept,
        List.nil_append, List.filter_eq_nil_iff]
      dsimp only
      rw [forall_unread (fun _ => IsCancelled.isLast) h hproc hreported,
        forall_unread (fun _ => IsSaved.isLast) h hproc hreported]
      constructor
      · rintro ⟨⟨hcancelled, hsaved⟩, hfiles⟩ _ _
        refine ⟨fun l hl => ⟨hsaved hkilled l hl, hcancelled l hl⟩, fun path hpath hc => ?_⟩
        exact hfiles path hpath (decide_eq_true hc)
      · intro htimely
        obtain ⟨hlines, hfiles⟩ := htimely hproc rfl
        refine ⟨⟨fun l hl => (hlines l hl).2, fun _ l hl => (hlines l hl).1⟩, fun path hp hc => ?_⟩
        exact hfiles path hp (of_decide_eq_true hc)
  · rw [onExit_of_ne hproc]
    exact ⟨fun _ hc => absurd hc hproc, fun _ => ⟨htold, hkept⟩⟩

theorem told_onKillTimer_iff (h : Sound s) (htold : ∀ k, (s.sessions k).Told) :
    (∀ k, ((onKillTimer s).sessions k).Told) ↔ Timely s .killTimer := by
  rw [Timely]
  rcases onKillTimer_cases h with ⟨heq, hreported⟩ | ⟨htimer, hproc, hreported, ht⟩
  · rw [heq]
    refine ⟨fun _ p hp hc => ?_, fun _ => htold⟩
    rw [hreported p hp] at hc
    cases hc
  · obtain ⟨message, hcurrent⟩ := ht.current
    rw [((h.running _ hproc).unreported hreported).1, List.nil_append] at hcurrent
    rw [told_iff_of_others htold ht.others, told_failed_iff (congrArg Session.signals hcurrent),
      hcurrent]
    dsimp only
    rw [forall_unread (fun _ => IsCancelled.isLast) h hproc hreported]
    constructor
    · rintro ⟨hlines, -⟩ p hp _
      obtain rfl : s.session = p := Option.some.inj (htimer.symm.trans hp)
      exact hlines
    · intro htimely
      refine ⟨htimely _ htimer hreported, fun hc => ?_⟩
      cases hc

theorem lost_onKillTimer (h : Sound s) : (onKillTimer s).lost = s.lost := by
  rcases onKillTimer_cases h with ⟨heq, _⟩ | ⟨_, _, _, ht⟩
  · rw [heq]
  · exact ht.lost

/-- **One event.** A recording is told as the process tells it after the event exactly when the
event is timely. -/
theorem reports_step (h : Sound s) (hr : Reports s) (e : Event) :
    Reports (step s e) ↔ Timely s e := by
  obtain ⟨htold, hkept⟩ := (reports_iff_told h).mp hr
  rw [reports_iff_told (sound_step h e)]
  cases e with
  | start launch =>
    exact ⟨fun _ => trivial, fun _ => ⟨told_start h htold launch, (lost_start launch).trans hkept⟩⟩
  | stop =>
    obtain ⟨hsessions, hlost⟩ := stop_eq_sessions (s := s)
    refine ⟨fun _ => trivial, fun _ => ⟨fun k => ?_, hlost.trans hkept⟩⟩
    rw [step, hsessions]
    exact htold k
  | printed p line =>
    rw [← told_print_iff h htold]
    exact and_iff_left (lost_print.trans hkept)
  | delivered p =>
    obtain ⟨hnext, hlost⟩ := told_readStatus h htold p
    exact ⟨fun _ => trivial, fun _ => ⟨hnext, hlost.trans hkept⟩⟩
  | exited p empty => exact told_onExit_iff h htold hkept empty
  | killTimer =>
    rw [← told_onKillTimer_iff h htold]
    exact and_iff_left ((lost_onKillTimer h).trans hkept)

theorem reports_initial : Reports {} := by
  refine (reports_iff_told sound_initial).mpr ⟨fun k => ⟨Nat.zero_le 1, fun _ => rfl, ?_⟩, rfl⟩
  intro line hline
  exact absurd hline List.not_mem_nil

/-- **The outcome of every recording.** In every state of a run, each start has led to the signal
that its process calls for, exactly when the main loop does not deliver the exit of a process before
its last line, nor fires the timer before the line of one that was cancelled. -/
theorem reports_iff (events : List Event) :
    (∀ events', events' <+: events → Reports (run step {} events')) ↔
      Guarded step Timely {} events :=
  guarded_iff_forall_prefix (I := Sound) (fun _ e h _ => sound_step h e)
    (fun _ e h hr => reports_step h hr e) sound_initial reports_initial events

/-- The exit is delivered when the last line, which says that the file is saved, is still to be
delivered. -/
theorem not_reports : ¬∀ events, Reports (run step {} events) := by
  intro h
  have hsaved := (h [.start .launched, .printed 1 (ofString "recording /v/a.mp4"), .delivered 1,
    .stop, .printed 1 (ofString "saved /v/a.mp4"), .exited 1 false]).saved 1
    (ofString "saved /v/a.mp4") (by decide) (by decide) (by decide)
    (.failed (ofString "The screen recorder stopped unexpectedly.")) (by decide)
  cases hsaved

end ScreenRecorder

end SingularityShell
