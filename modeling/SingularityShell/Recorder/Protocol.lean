import Mathlib.Data.List.Nodup
import SingularityShell.Recorder.Model

/-!
# The protocol of the recorder

The path is announced once, when the first pipeline plays. A pipeline that plays and then fails
before a frame was encoded is tried again with the next encoder, whose file may have another
extension, and that path is not announced.

## Main definitions

* `Recorder.Proper` — what the parent may rely on
* `Recorder.Regular` — an event after which the announced path is the path of the file

## Main results

* `Recorder.kept_startPipeline` — the attempts end in a pipeline or in a failure
* `Recorder.kept_step` — the step lemma
* `Recorder.proper_of_regular` — in a run of such events, the protocol is kept
-/

namespace SingularityShell

namespace Recorder

open Ascii

/-! ### The property -/

/-- A line after which nothing is printed. -/
def Line.Last : Line → Prop
  | .saved _ _ => True
  | .cancelled => True
  | .error _ => True
  | _ => False

/-- The lines before the last one say where the file of the path is recorded. -/
def Announces (path : Text) (printed : List Line) : Prop :=
  Line.recording path ∈ printed ∧ ∀ other, Line.recording other ∈ printed → other = path

/-- One last line is printed when the process is done and none before, nothing follows it, a file
that is saved has data and is the one that was announced, the handle is given back once, what is
given up is given up once, and a process that is not done waits for something, which after a request
to stop is the portal or the timer. -/
structure Proper (s : State) : Prop where
  last : s.done = true → ∃ before line, s.printed = before ++ [line] ∧ line.Last ∧
    ∀ l ∈ before, ¬l.Last
  undone : s.done = false → ∀ l ∈ s.printed, ¬l.Last
  saved : ∀ before path size after, s.printed = before ++ .saved path size :: after →
    1024 < size ∧ Announces path before
  stopped : s.stopped = if s.done then s.obtained else []
  obtained : s.obtained.length ≤ 1
  givenUp : s.givenUp.Nodup ∧ ∀ index, .plan index ∈ s.givenUp → index + 1 < s.plans.length
  attempts : s.attempts ≤ s.givenUp.length + 1
  waits : s.done = false → s.phase ≠ .complete ∨
    s.busWatch = true ∧ (s.stopping = true → s.stopTimeout = true)

/-- The plan of the pipeline that starts after some attempts failed. -/
def planAfter (attempts : ℕ) (withAudio : Bool) (index : ℕ) : ℕ :=
  index + (attempts - withAudio.toNat)

/-- The file would be saved, and its path was not announced. -/
def Unannounced (size : ℕ) (s : State) : Prop :=
  s.encodedFrames ≠ 0 ∧ 1024 < size ∧ s.announced = false

/-- The portal gives no handle 0, a file has data only when the pipeline has played, and after a
pipeline that has played another one starts only for a file with the same extension. -/
def Regular (s : State) : Event → Prop
  | .captured ok handle _ => ok = true → handle ≠ 0
  | .eos size => ¬Unannounced size s
  | .stopTimeout size => ¬Unannounced size s
  | .error size attempts =>
    if s.encodedFrames = 0 ∧ s.stopping = false then
      ∀ old new, s.announced = true → s.plans[s.planIndex]? = some old →
        s.plans[planAfter (attempts.length + 1) s.withAudio s.planIndex]? = some new →
        new.extension = old.extension
    else ¬Unannounced size s
  | _ => True

/-! ### The invariant -/

/-- What holds of a process that is not done, whatever it waits for. -/
structure Undone (s : State) : Prop where
  done : s.done = false
  last : ∀ l ∈ s.printed, ¬l.Last
  stopped : s.stopped = []
  obtained : s.obtained = if s.captureHandle = 0 then [] else [s.captureHandle]
  portal : s.captureHandle ≠ 0 → s.portal = true
  nodup : s.givenUp.Nodup
  audio : .audio ∈ s.givenUp → s.withAudio = false
  plan : ∀ index, .plan index ∈ s.givenUp → index < s.planIndex
  index : s.planIndex < s.plans.length ∨ s.givenUp = []
  attempts : s.attempts ≤ s.givenUp.length + 1
  recording : s.announced = false → ∀ path, .recording path ∉ s.printed

/-- Before the first pipeline. -/
structure Starting (s : State) : Prop where
  undone : Undone s
  announced : s.announced = false
  stopTimeout : s.stopTimeout = false
  busWatch : s.busWatch = false
  pipeline : s.pipeline = false
  attempts : s.attempts = 0
  captureHandle : s.captureHandle = 0
  phase : s.phase ≠ .complete
  planIndex : s.planIndex = 0
  givenUp : s.givenUp = []
  plans : s.phase ≠ .unstarted → s.plans ≠ []
  portal : s.phase = .capture → s.portal = true

/-- A pipeline may be started. -/
structure Ready (s : State) : Prop where
  undone : Undone s
  phase : s.phase = .complete
  stopping : s.stopping = false
  index : s.planIndex < s.plans.length
  attempts : s.attempts ≤ s.givenUp.length

/-- The path of a plan. -/
def State.pathAt (s : State) (index : ℕ) : Option Text := (s.plans[index]?).map (pathOf s.basePath)

/-- A pipeline was started. -/
structure Running (s : State) : Prop where
  undone : Undone s
  phase : s.phase = .complete
  pipeline : s.pipeline = true
  busWatch : s.busWatch = true
  stopping : s.stopping = true → s.stopTimeout = true
  index : s.planIndex < s.plans.length
  outPath : s.outPath = s.pathAt s.planIndex
  announced : s.announced = true → ∃ path, s.outPath = some path ∧ Announces path s.printed

/-- The process is done. -/
structure Over (s : State) : Prop where
  proper : Proper s
  done : s.done = true
  phase : s.phase = .complete
  busWatch : s.busWatch = false
  stopTimeout : s.stopTimeout = false

def Kept (s : State) : Prop := Starting s ∨ Running s ∨ Over s

theorem Undone.givenUp_lt {s : State} (h : Undone s) (index : ℕ)
    (hindex : .plan index ∈ s.givenUp) :
    index + 1 < s.plans.length := by
  rcases h.index with hlt | hnil
  · have := h.plan index hindex
    omega
  · rw [hnil] at hindex
    cases hindex

theorem Undone.obtained_length {s : State} (h : Undone s) : s.obtained.length ≤ 1 := by
  rw [h.obtained]
  split_ifs
  · exact Nat.zero_le 1
  · exact Nat.le_refl 1

/-- Nothing is saved as long as the process is not done. -/
theorem Undone.proper {s : State} (h : Undone s)
    (hwaits : s.phase ≠ .complete ∨
      s.busWatch = true ∧ (s.stopping = true → s.stopTimeout = true)) :
    Proper s where
  last hdone := absurd (hdone.symm.trans h.done) Bool.noConfusion
  undone _ := h.last
  saved before path size after heq := by
    refine absurd trivial (h.last (.saved path size) ?_)
    rw [heq]
    exact List.mem_append_right _ List.mem_cons_self
  stopped := by rw [h.stopped, h.done]; rfl
  obtained := h.obtained_length
  givenUp := ⟨h.nodup, h.givenUp_lt⟩
  attempts := h.attempts
  waits _ := hwaits

theorem Kept.proper {s : State} (h : Kept s) : Proper s := by
  rcases h with hstarting | hrunning | hover
  · exact hstarting.undone.proper (Or.inl hstarting.phase)
  · exact hrunning.undone.proper (Or.inr ⟨hrunning.busWatch, hrunning.stopping⟩)
  · exact hover.proper

/-! ### The ends -/

theorem releaseCapture_eq {s : State} (hstopped : s.stopped = [])
    (hobtained : s.obtained = if s.captureHandle = 0 then [] else [s.captureHandle])
    (hportal : s.captureHandle ≠ 0 → s.portal = true) :
    releaseCapture s = { s with captureHandle := 0, stopped := s.obtained } := by
  rw [releaseCapture]
  by_cases hhandle : s.captureHandle = 0
  · rw [if_pos (Or.inr hhandle)]
    rw [if_pos hhandle] at hobtained
    have hpair : (s.captureHandle, s.stopped) = (0, s.obtained) := by
      rw [hhandle, hstopped, hobtained]
    exact congrArg
      (fun p : UInt32 × List UInt32 => { s with captureHandle := p.1, stopped := p.2 }) hpair
  · rw [if_neg (not_or.mpr ⟨by rw [hportal hhandle]; decide, hhandle⟩)]
    rw [if_neg hhandle] at hobtained
    rw [hobtained, hstopped]
    rfl

/-- A last line is printed. -/
theorem over_of_last {s t : State} (h : Undone s) (line : Line) (pipeline : Bool)
    (hlast : line.Last)
    (hsaved : ∀ path size, line = .saved path size → 1024 < size ∧ Announces path s.printed)
    {busWatch stopTimeout : Bool} (hbusWatch : busWatch = false)
    (hstopTimeout : stopTimeout = false)
    (ht : t = { s with
      captureHandle := 0, stopped := s.obtained, stopTimeout, busWatch, pipeline
      phase := .complete, done := true, printed := s.printed ++ [line] }) : Over t := by
  subst ht
  refine ⟨⟨fun _ => ⟨s.printed, line, rfl, hlast, h.last⟩, nofun, ?_, rfl, h.obtained_length,
    ⟨h.nodup, h.givenUp_lt⟩, h.attempts, nofun⟩, rfl, rfl, hbusWatch, hstopTimeout⟩
  intro before path size after heq
  rcases List.append_eq_append_iff.mp heq with ⟨rest, hbefore, hrest⟩ | ⟨rest, hprinted, hrest⟩
  · cases rest with
    | nil =>
      rw [List.nil_append] at hrest
      rw [hbefore, List.append_nil]
      exact hsaved path size (List.cons.inj hrest).1
    | cons l rest =>
      exact absurd (List.cons.inj hrest).2.symm
        (List.append_ne_nil_of_right_ne_nil rest (List.cons_ne_nil _ _))
  · cases rest with
    | nil =>
      rw [List.append_nil] at hprinted
      rw [← hprinted]
      exact hsaved path size (List.cons.inj hrest).1.symm
    | cons l rest =>
      refine absurd trivial (h.last (.saved path size) ?_)
      rw [hprinted, (List.cons.inj hrest).1]
      exact List.mem_append_right _ List.mem_cons_self

theorem over_fail {s : State} (h : Undone s) (hphase : s.phase = .complete) (failure : Failure) :
    Over (fail failure s) := by
  refine over_of_last h (.error failure) false trivial nofun rfl rfl ?_
  have hrelease :=
    releaseCapture_eq (s := teardownPipeline { s with done := true }) h.stopped h.obtained
    h.portal
  rw [fail, if_neg (by rw [h.done]; decide), hrelease, ← hphase]
  rfl

theorem over_cancel {s : State} (h : Undone s) (hphase : s.phase = .complete)
    (hbusWatch : s.busWatch = false) (hstopTimeout : s.stopTimeout = false) : Over (cancel s) := by
  refine over_of_last h .cancelled s.pipeline trivial nofun hbusWatch hstopTimeout ?_
  rw [cancel, releaseCapture_eq h.stopped h.obtained h.portal, ← hphase]
  rfl

/-- The capture is given back already. -/
theorem fail_of_released {s : State} (hdone : s.done = false) (hhandle : s.captureHandle = 0)
    (failure : Failure) : fail failure s =
      emit (.error failure) (teardownPipeline { s with done := true }) := by
  have hrelease : releaseCapture (teardownPipeline { s with done := true }) =
      teardownPipeline { s with done := true } := if_pos (Or.inr hhandle)
  rw [fail, if_neg (by rw [hdone]; decide), hrelease]

theorem over_finish {s : State} (h : Undone s) (hphase : s.phase = .complete) {size : ℕ}
    (hannounced : ∀ path, s.outPath = some path → s.encodedFrames ≠ 0 → 1024 < size →
      Announces path s.printed) : Over (finish size s) := by
  have hrelease := releaseCapture_eq (s := teardownPipeline s) h.stopped h.obtained h.portal
  have hnothing : Over (fail .nothing (releaseCapture (teardownPipeline s))) := by
    have hdone : (releaseCapture (teardownPipeline s)).done = false := by
      rw [hrelease]
      exact h.done
    have hhandle : (releaseCapture (teardownPipeline s)).captureHandle = 0 := by rw [hrelease]
    refine over_of_last h (.error .nothing) false trivial nofun rfl rfl ?_
    rw [fail_of_released hdone hhandle, hrelease, ← hphase]
    rfl
  rw [finish, if_neg (by rw [h.done]; decide)]
  dsimp only
  have hpath : (releaseCapture (teardownPipeline s)).outPath = s.outPath := by rw [hrelease]; rfl
  have hframes : (releaseCapture (teardownPipeline s)).encodedFrames = s.encodedFrames := by
    rw [hrelease]
    rfl
  obtain ⟨out, hout⟩ : ∃ out, out = s.outPath := ⟨_, rfl⟩
  rw [hpath, hframes, ← hout]
  cases out with
  | none => exact hnothing
  | some path =>
    dsimp only
    split_ifs with hsaved
    · refine over_of_last h (.saved path size) false trivial (fun path' size' heq => ?_) rfl rfl ?_
      · obtain ⟨rfl, rfl⟩ := Line.saved.inj heq
        exact ⟨hsaved.2, hannounced path hout.symm hsaved.1 hsaved.2⟩
      · rw [hout, hrelease, ← hphase]
        rfl
    · exact hnothing

/-! ### The attempts -/

/-- A pipeline is started: what is recorded is what was announced, if anything was. -/
theorem running_of_ready {s : State} (h : Ready s)
    (hannounced : s.announced = true → ∃ path, s.pathAt s.planIndex = some path ∧
      Announces path s.printed) : Running (startPipeline [] s) := by
  have hundone := h.undone
  refine ⟨⟨hundone.done, hundone.last, hundone.stopped, hundone.obtained, hundone.portal,
    hundone.nodup, hundone.audio, hundone.plan, hundone.index, ?_, hundone.recording⟩,
    h.phase, rfl, rfl, fun hstop => ?_,
    h.index, rfl, hannounced⟩
  · exact Nat.succ_le_succ h.attempts
  · exact absurd ((show s.stopping = true from hstop).symm.trans h.stopping) Bool.noConfusion

/-- What an attempt that fails leaves can be given up once. -/
theorem ready_of_nextPlan {s t : State} (h : Undone s) (hphase : s.phase = .complete)
    (hstopping : s.stopping = false) (hindex : s.planIndex < s.plans.length)
    (ht : nextPlan s = some t) : Ready t := by
  rw [nextPlan] at ht
  split_ifs at ht with haudio hnext
  · obtain rfl := Option.some.inj ht
    refine ⟨⟨h.done, fun l hl => ?_, h.stopped, h.obtained, h.portal, ?_, fun _ => rfl,
      fun index hi => ?_, Or.inl hindex, ?_, fun hann path hp => ?_⟩, hphase,
      hstopping, hindex, ?_⟩
    · rcases List.mem_append.mp hl with hold | hnew
      · exact h.last l hold
      · rw [List.mem_singleton.mp hnew]
        exact id
    · refine h.nodup.append (List.nodup_singleton _) ?_
      rw [List.disjoint_singleton]
      exact fun hmem => absurd (haudio.symm.trans (h.audio hmem)) Bool.noConfusion
    · rcases List.mem_append.mp hi with hold | hnew
      · exact h.plan index hold
      · cases List.mem_singleton.mp hnew
    · show s.attempts ≤ (s.givenUp ++ [GivenUp.audio]).length + 1
      rw [List.length_append]
      exact h.attempts.trans (by omega)
    · rcases List.mem_append.mp hp with hold | hnew
      · exact h.recording hann path hold
      · cases List.mem_singleton.mp hnew
    · show s.attempts ≤ (s.givenUp ++ [GivenUp.audio]).length
      rw [List.length_append]
      exact h.attempts
  · obtain rfl := Option.some.inj ht
    refine ⟨⟨h.done, h.last, h.stopped, h.obtained, h.portal, ?_,
      fun hmem => ?_, fun index hi => ?_, Or.inl hnext, ?_, h.recording⟩, hphase, hstopping, hnext,
      ?_⟩
    · refine h.nodup.append (List.nodup_singleton _) ?_
      rw [List.disjoint_singleton]
      exact fun hmem => Nat.lt_irrefl _ (h.plan _ hmem)
    · rcases List.mem_append.mp hmem with hold | hnew
      · exact h.audio hold
      · cases List.mem_singleton.mp hnew
    · show index < s.planIndex + 1
      rcases List.mem_append.mp hi with hold | hnew
      · exact Nat.lt_succ_of_lt (h.plan index hold)
      · rw [GivenUp.plan.inj (List.mem_singleton.mp hnew)]
        exact Nat.lt_succ_self _
    · show s.attempts ≤ (s.givenUp ++ [GivenUp.plan s.planIndex]).length + 1
      rw [List.length_append]
      exact h.attempts.trans (by omega)
    · show s.attempts ≤ (s.givenUp ++ [GivenUp.plan s.planIndex]).length
      rw [List.length_append]
      exact h.attempts

/-- What is announced stays announced when something is given up, and the plan that starts after
some more failures is the same. -/
theorem next_of_nextPlan {s t : State} (ht : nextPlan s = some t) (failures : ℕ) :
    t.announced = s.announced ∧ t.pathAt = s.pathAt ∧
    planAfter failures t.withAudio t.planIndex = planAfter (failures + 1) s.withAudio s.planIndex ∧
    ∀ path, Announces path s.printed → Announces path t.printed := by
  rw [nextPlan] at ht
  split_ifs at ht with haudio hnext
  · obtain rfl := Option.some.inj ht
    refine ⟨rfl, rfl, ?_,
      fun path ⟨hmem, honly⟩ => ⟨List.mem_append_left _ hmem, fun other hother => ?_⟩⟩
    · show s.planIndex + (failures - 0) = s.planIndex + (failures + 1 - s.withAudio.toNat)
      rw [haudio]
      rfl
    · rcases List.mem_append.mp hother with hold | hnew
      · exact honly other hold
      · cases List.mem_singleton.mp hnew
  · obtain rfl := Option.some.inj ht
    refine ⟨rfl, rfl, ?_, fun path h => h⟩
    show s.planIndex + 1 + (failures - s.withAudio.toNat) =
      s.planIndex + (failures + 1 - s.withAudio.toNat)
    rw [Bool.eq_false_iff.mpr haudio]
    exact Nat.add_right_comm _ _ _

/-- If a path was announced, the plan that starts after some failures writes that path. -/
def SamePath (failures : ℕ) (s : State) : Prop :=
  s.announced = true → ∃ path, Announces path s.printed ∧
    ∀ other, s.pathAt (planAfter failures s.withAudio s.planIndex) = some other → other = path

theorem SamePath.next {s t : State} {failures : ℕ} (h : SamePath (failures + 1) s)
    (ht : nextPlan s = some t) : SamePath failures t := by
  obtain ⟨hannounced, hpath, hplan, hprinted⟩ := next_of_nextPlan ht failures
  intro hann
  obtain ⟨path, hold, honly⟩ := h (hannounced ▸ hann)
  refine ⟨path, hprinted path hold, fun other hother => honly other ?_⟩
  rw [← hplan, ← hpath]
  exact hother

/-- What a failed attempt leaves of what holds of the process. -/
theorem Undone.abandon {s : State} (h : Ready s) (attempt : Attempt) :
    Undone (abandon attempt (choosePath s)) := by
  have hundone := h.undone
  have hattempts := Nat.succ_le_succ h.attempts
  cases attempt <;> exact ⟨hundone.done, hundone.last, hundone.stopped, hundone.obtained,
    hundone.portal, hundone.nodup, hundone.audio, hundone.plan, hundone.index, hattempts,
    hundone.recording⟩

/-- **The attempts end in a pipeline or in a failure.** -/
theorem kept_startPipeline {s : State} (h : Ready s) {attempts : List Attempt}
    (hsame : SamePath attempts.length s) :
    Running (startPipeline attempts s) ∨ Over (startPipeline attempts s) := by
  induction attempts generalizing s with
  | nil =>
    refine Or.inl (running_of_ready h fun hannounced => ?_)
    obtain ⟨path, hpath, honly⟩ := hsame hannounced
    obtain ⟨plan, hplan⟩ : ∃ plan, s.plans[s.planIndex]? = some plan :=
      ⟨_, List.getElem?_eq_getElem h.index⟩
    have hindex : planAfter 0 s.withAudio s.planIndex = s.planIndex := by
      rw [planAfter, Nat.zero_sub, Nat.add_zero]
    have hat : s.pathAt s.planIndex = some (pathOf s.basePath plan) := by
      rw [State.pathAt, hplan]
      rfl
    refine ⟨path, ?_, hpath⟩
    rw [hat, honly (pathOf s.basePath plan) (by rw [List.length_nil, hindex, hat])]
  | cons attempt attempts ih =>
    have hundone := Undone.abandon h attempt
    have hphase : (abandon attempt (choosePath s)).phase = .complete := by
      cases attempt <;> exact h.phase
    rw [startPipeline]
    cases ht : nextPlan (abandon attempt (choosePath s)) with
    | none => exact Or.inr (over_fail hundone hphase .start)
    | some t =>
      refine ih (ready_of_nextPlan hundone hphase ?_ ?_ ht) (SamePath.next ?_ ht)
      · cases attempt <;> exact h.stopping
      · cases attempt <;> exact h.index
      · cases attempt <;> exact hsame

/-! ### The events -/

theorem kept_onError {s : State} (h : Running s) {size : ℕ} {attempts : List Attempt}
    (hok : Regular s (.error size attempts)) : Kept (onError size attempts s) := by
  have hundone := h.undone
  have hundone' : Undone { s with busWatch := false } :=
    ⟨hundone.done, hundone.last, hundone.stopped, hundone.obtained, hundone.portal, hundone.nodup,
      hundone.audio, hundone.plan, hundone.index, hundone.attempts, hundone.recording⟩
  have htorn : Undone (teardownPipeline { s with busWatch := false }) :=
    ⟨hundone.done, hundone.last, hundone.stopped, hundone.obtained, hundone.portal, hundone.nodup,
      hundone.audio, hundone.plan, hundone.index, hundone.attempts, hundone.recording⟩
  rw [onError]
  dsimp only
  rw [Regular] at hok
  by_cases hretry : s.encodedFrames = 0 ∧ s.stopping = false
  · rw [if_pos hretry] at hok ⊢
    rw [nextPlanOrFail]
    cases ht : nextPlan (teardownPipeline { s with busWatch := false }) with
    | none => exact Or.inr (Or.inr (over_fail htorn h.phase .start))
    | some t =>
      refine Or.inr (kept_startPipeline (ready_of_nextPlan htorn h.phase hretry.2 h.index ht)
        (SamePath.next (fun hannounced => ?_) ht))
      obtain ⟨path, hout, hpath⟩ := h.announced hannounced
      rw [h.outPath, State.pathAt, Option.map_eq_some_iff] at hout
      obtain ⟨old, hold, rfl⟩ := hout
      refine ⟨_, hpath, fun other hother => ?_⟩
      obtain ⟨new, hnew, rfl⟩ := Option.map_eq_some_iff.mp hother
      show pathOf s.basePath new = pathOf s.basePath old
      rw [pathOf, hok old new hannounced hold hnew, pathOf]
  · rw [if_neg hretry] at hok ⊢
    split_ifs
    · refine Or.inr (Or.inr (over_finish hundone' h.phase fun path hout hframes hsize => ?_))
      have hannounced : s.announced = true := by
        by_contra hno
        exact hok ⟨hframes, hsize, Bool.eq_false_iff.mpr hno⟩
      obtain ⟨path', hout', hpath⟩ := h.announced hannounced
      rw [Option.some.inj (hout.symm.trans hout')]
      exact hpath
    · exact Or.inr (Or.inr (over_fail htorn h.phase .stopped))

/-- A step of `start` that does not start a pipeline yet. -/
theorem Starting.undone_phase {s : State} (h : Starting s) (phase : Phase)
    (plans : List EncoderPlan) (withAudio portal : Bool) :
    Undone { s with phase, plans, withAudio, portal } := by
  have hundone := h.undone
  refine ⟨hundone.done, hundone.last, hundone.stopped, hundone.obtained,
    fun hhandle => absurd h.captureHandle hhandle, hundone.nodup, fun hmem => ?_, hundone.plan,
    Or.inr h.givenUp, hundone.attempts, hundone.recording⟩
  rw [show _ = [] from h.givenUp] at hmem
  cases hmem

theorem kept_start {s : State} (h : Starting s) (missing : Bool) (usable : EncoderPlan → Bool)
    (audio audioElements : Bool) : Kept (start missing usable audio audioElements s) := by
  rw [start]
  dsimp only
  split_ifs with hmissing hnone
  · exact Or.inr (Or.inr (over_fail (h.undone_phase _ _ _ _) rfl .elements))
  · exact Or.inr (Or.inr (over_fail (h.undone_phase _ _ _ _) rfl .encoders))
  · exact Or.inl ⟨h.undone_phase _ _ _ _, h.announced, h.stopTimeout, h.busWatch, h.pipeline,
      h.attempts, h.captureHandle, nofun, h.planIndex, h.givenUp, fun _ => hnone, nofun⟩

theorem kept_onProxy {s : State} (h : Starting s) (hphase : s.phase = .proxy) (ok source : Bool) :
    Kept (onProxy ok source s) := by
  have hplans : s.plans ≠ [] := h.plans (by rw [hphase]; decide)
  rw [onProxy]
  dsimp only
  split_ifs
  · exact Or.inl ⟨h.undone_phase _ _ _ _, h.announced, h.stopTimeout, h.busWatch, h.pipeline,
      h.attempts, h.captureHandle, nofun, h.planIndex, h.givenUp, fun _ => hplans, fun _ => rfl⟩
  · exact Or.inr (Or.inr (over_fail (h.undone_phase _ _ _ _) rfl .source))
  · exact Or.inr (Or.inr (over_fail (h.undone_phase _ _ _ _) rfl .portal))

theorem kept_onCaptured {s : State} (h : Starting s) (hphase : s.phase = .capture) {ok : Bool}
    {handle : UInt32} (hok : ok = true → handle ≠ 0) (attempts : List Attempt) :
    Kept (onCaptured ok handle attempts s) := by
  have hundone := h.undone
  have hobtained : s.obtained = [] := by rw [hundone.obtained, if_pos h.captureHandle]
  have hlength : 0 < s.plans.length :=
    List.length_pos_iff.mpr (h.plans (by rw [hphase]; decide))
  rw [onCaptured]
  dsimp only
  split_ifs with hcaptured hstopping
  · refine Or.inr (Or.inr (over_cancel ?_ rfl h.busWatch h.stopTimeout))
    refine ⟨hundone.done, hundone.last, hundone.stopped, ?_,
      fun _ => h.portal hphase, hundone.nodup, hundone.audio, hundone.plan, Or.inr h.givenUp,
      hundone.attempts, hundone.recording⟩
    show s.obtained ++ [handle] = if handle = 0 then [] else [handle]
    rw [if_neg (hok hcaptured), hobtained]
    rfl
  · have hready : Ready
        { s with
          phase := .complete, captureHandle := handle, obtained := s.obtained ++ [handle] } := by
      refine ⟨⟨hundone.done, hundone.last, hundone.stopped, ?_, fun _ => h.portal hphase,
        hundone.nodup, hundone.audio, hundone.plan, Or.inr h.givenUp, hundone.attempts,
        hundone.recording⟩, rfl, Bool.eq_false_iff.mpr hstopping, ?_, ?_⟩
      · show s.obtained ++ [handle] = if handle = 0 then [] else [handle]
        rw [if_neg (hok hcaptured), hobtained]
        rfl
      · show s.planIndex < s.plans.length
        rw [h.planIndex]
        exact hlength
      · show s.attempts ≤ _
        rw [h.attempts]
        exact Nat.zero_le _
    refine Or.inr (kept_startPipeline hready fun hannounced => ?_)
    exact absurd (hannounced.symm.trans h.announced) Bool.noConfusion
  · refine Or.inr (Or.inr (over_fail ?_ rfl .portal))
    exact ⟨hundone.done, hundone.last, hundone.stopped, hundone.obtained, hundone.portal,
      hundone.nodup, hundone.audio, hundone.plan, Or.inr h.givenUp, hundone.attempts,
      hundone.recording⟩

theorem kept_requestStop {s : State} (h : Kept s) : Kept (requestStop s) := by
  rw [requestStop]
  split_ifs with hskip hpipeline
  · exact h
  · rcases h with hstarting | hrunning | hover
    · exact absurd (hpipeline.symm.trans hstarting.pipeline) Bool.noConfusion
    · have hundone := hrunning.undone
      exact Or.inr (Or.inl ⟨⟨hundone.done, hundone.last, hundone.stopped, hundone.obtained,
        hundone.portal, hundone.nodup, hundone.audio, hundone.plan, hundone.index, hundone.attempts,
        hundone.recording⟩, hrunning.phase, hrunning.pipeline, hrunning.busWatch, fun _ => rfl,
        hrunning.index, hrunning.outPath, hrunning.announced⟩)
    · exact absurd (Or.inr hover.done) hskip
  · rcases h with hstarting | hrunning | hover
    · have hundone := hstarting.undone
      exact Or.inl ⟨⟨hundone.done, hundone.last, hundone.stopped, hundone.obtained,
        hundone.portal, hundone.nodup, hundone.audio, hundone.plan, hundone.index, hundone.attempts,
        hundone.recording⟩, hstarting.announced, hstarting.stopTimeout, hstarting.busWatch,
        hstarting.pipeline, hstarting.attempts, hstarting.captureHandle, hstarting.phase,
        hstarting.planIndex, hstarting.givenUp, hstarting.plans, hstarting.portal⟩
    · exact absurd hrunning.pipeline hpipeline
    · exact absurd (Or.inr hover.done) hskip

theorem kept_frame {s : State} (h : Kept s) (frames : Int32) :
    Kept { s with encodedFrames := frames } := by
  rcases h with hstarting | hrunning | hover
  · have hundone := hstarting.undone
    exact Or.inl ⟨⟨hundone.done, hundone.last, hundone.stopped, hundone.obtained,
      hundone.portal, hundone.nodup, hundone.audio, hundone.plan, hundone.index, hundone.attempts,
      hundone.recording⟩, hstarting.announced, hstarting.stopTimeout, hstarting.busWatch,
      hstarting.pipeline, hstarting.attempts, hstarting.captureHandle, hstarting.phase,
      hstarting.planIndex, hstarting.givenUp, hstarting.plans, hstarting.portal⟩
  · have hundone := hrunning.undone
    exact Or.inr (Or.inl ⟨⟨hundone.done, hundone.last, hundone.stopped, hundone.obtained,
      hundone.portal, hundone.nodup, hundone.audio, hundone.plan, hundone.index, hundone.attempts,
      hundone.recording⟩, hrunning.phase, hrunning.pipeline, hrunning.busWatch, hrunning.stopping,
      hrunning.index, hrunning.outPath, hrunning.announced⟩)
  · have hproper := hover.proper
    exact Or.inr (Or.inr ⟨⟨hproper.last, hproper.undone, hproper.saved, hproper.stopped,
      hproper.obtained, hproper.givenUp, hproper.attempts, hproper.waits⟩, hover.done, hover.phase,
      hover.busWatch, hover.stopTimeout⟩)

/-- A path that is announced for the first time. -/
theorem running_onPlaying {s : State} (h : Running s) : Running (onPlaying s) := by
  have hundone := h.undone
  obtain ⟨plan, hplan⟩ : ∃ plan, s.plans[s.planIndex]? = some plan :=
    ⟨_, List.getElem?_eq_getElem h.index⟩
  have hout : s.outPath = some (pathOf s.basePath plan) := by
    rw [h.outPath, State.pathAt, hplan]
    rfl
  rw [onPlaying]
  by_cases hannounced : s.announced = true
  · rw [if_pos hannounced]
    exact h
  rw [if_neg hannounced, hout]
  have hnone := hundone.recording (Bool.eq_false_iff.mpr hannounced)
  refine ⟨⟨hundone.done, fun l hl => ?_, hundone.stopped, hundone.obtained, hundone.portal,
    hundone.nodup, hundone.audio, hundone.plan, hundone.index, hundone.attempts, nofun⟩, h.phase,
    h.pipeline, h.busWatch, h.stopping, h.index, ?_, fun _ => ?_⟩
  · rcases List.mem_append.mp hl with hold | hnew
    · exact hundone.last l hold
    · rw [List.mem_singleton.mp hnew]
      exact id
  · exact hout.symm.trans h.outPath
  · refine ⟨pathOf s.basePath plan, rfl, List.mem_append_right _ List.mem_cons_self,
      fun other hother => ?_⟩
    rcases List.mem_append.mp hother with hold | hnew
    · exact absurd hold (hnone other)
    · exact Line.recording.inj (List.mem_singleton.mp hnew)

/-- The pipeline ends: a file that is saved was announced. -/
theorem Running.finish {s : State} (h : Running s) {size : ℕ} (hok : ¬Unannounced size s)
    (busWatch stopTimeout : Bool) : Over (finish size { s with busWatch, stopTimeout }) := by
  have hundone := h.undone
  have hundone' : Undone { s with busWatch, stopTimeout } :=
    ⟨hundone.done, hundone.last, hundone.stopped, hundone.obtained, hundone.portal, hundone.nodup,
      hundone.audio, hundone.plan, hundone.index, hundone.attempts, hundone.recording⟩
  refine over_finish hundone' h.phase fun path hout hframes hsize => ?_
  have hannounced : s.announced = true := by
    by_contra hno
    exact hok ⟨hframes, hsize, Bool.eq_false_iff.mpr hno⟩
  obtain ⟨path', hout', hpath⟩ := h.announced hannounced
  obtain rfl : path = path' :=
    Option.some.inj ((show s.outPath = some path from hout).symm.trans hout')
  exact hpath

/-- The watch of the bus is there only while a pipeline is. -/
theorem Kept.running {s : State} (h : Kept s) (hwatch : s.busWatch = true ∨ s.stopTimeout = true) :
    Running s := by
  rcases h with hstarting | hrunning | hover
  · rw [hstarting.busWatch, hstarting.stopTimeout] at hwatch
    exact absurd hwatch (by decide)
  · exact hrunning
  · rw [hover.busWatch, hover.stopTimeout] at hwatch
    exact absurd hwatch (by decide)

/-- The steps of `start` come before a pipeline is. -/
theorem Kept.starting {s : State} (h : Kept s) (hphase : s.phase ≠ .complete) : Starting s := by
  rcases h with hstarting | hrunning | hover
  · exact hstarting
  · exact absurd hrunning.phase hphase
  · exact absurd hover.phase hphase

/-- **The step lemma.** -/
theorem kept_step {s : State} (h : Kept s) {e : Event} (hok : Regular s e) : Kept (step s e) := by
  cases e with
  | start missing usable audio audioElements =>
    rw [step]
    split_ifs with hphase
    · exact kept_start (h.starting (by rw [hphase]; decide)) missing usable audio audioElements
    · exact h
  | proxy ok source =>
    rw [step]
    split_ifs with hphase
    · exact kept_onProxy (h.starting (by rw [hphase]; decide)) hphase ok source
    · exact h
  | captured ok handle attempts =>
    rw [step]
    split_ifs with hphase
    · exact kept_onCaptured (h.starting (by rw [hphase]; decide)) hphase hok attempts
    · exact h
  | stop => exact kept_requestStop h
  | frame => exact kept_frame h _
  | playing =>
    rw [step]
    split_ifs with hwatch
    · exact Or.inr (Or.inl (running_onPlaying (h.running (Or.inl hwatch))))
    · exact h
  | eos size =>
    rw [step]
    split_ifs with hwatch
    · exact Or.inr (Or.inr ((h.running (Or.inl hwatch)).finish hok false s.stopTimeout))
    · exact h
  | error size attempts =>
    rw [step]
    split_ifs with hwatch
    · exact kept_onError (h.running (Or.inl hwatch)) hok
    · exact h
  | stopTimeout size =>
    rw [step]
    split_ifs with htimeout
    · exact Or.inr (Or.inr ((h.running (Or.inr htimeout)).finish hok s.busWatch false))
    · exact h

/-! ### Runs -/

theorem kept_init (basePath : Text) : Kept { basePath } :=
  Or.inl ⟨⟨rfl, nofun, rfl, rfl, nofun, List.nodup_nil, nofun, nofun, Or.inr rfl, Nat.zero_le 1,
    nofun⟩, rfl, rfl, rfl, rfl, rfl, rfl, nofun, rfl, rfl, nofun, nofun⟩

/-- **The protocol of the recorder is kept**, in every run in which the portal gives no handle 0, a
file has data only when the pipeline has played, and after a pipeline that has played another one
starts only for a file with the same extension. -/
theorem proper_of_regular {basePath : Text} {events : List Event}
    (h : Transition.Guarded step Regular { basePath } events) : Proper (run basePath events) :=
  (h.invariant (P := Kept) (fun _ _ hs he => kept_step hs he) (kept_init basePath)).proper

/-- A recording of some frames, which is stopped. -/
def recorded : List Event :=
  [.start false (fun _ => true) false true, .proxy true true, .captured true 7 [], .playing, .frame,
    .stop, .eos 4096]

theorem proper_recorded : Proper (run (ofString "clip") recorded) :=
  proper_of_regular ⟨trivial, trivial, fun _ => by decide, trivial, trivial, trivial,
    fun h => absurd h.2.2 (by decide), trivial⟩

/-- The encoder that is tried first fails after the pipeline has played, and the next one writes
another container. -/
def retried : List Event :=
  [.start false (fun plan => plan.encoder = ofString "x264enc" || plan.encoder = ofString "vp8enc")
    false true, .proxy true true, .captured true 7 [], .playing, .error 0 [], .frame, .stop,
    .eos 4096]

theorem not_proper : ¬∀ basePath events, Proper (run basePath events) := by
  intro h
  have hprinted : (run (ofString "clip") retried).printed =
      [.recording (ofString "clip.mp4"), .saved (ofString "clip.webm") 4096] := by
    decide +kernel
  obtain ⟨-, -, honly⟩ := (h (ofString "clip") retried).saved [_] _ _ [] hprinted
  exact absurd (honly (ofString "clip.mp4") List.mem_cons_self) (by decide)

end Recorder

end SingularityShell
