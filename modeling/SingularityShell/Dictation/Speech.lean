import SingularityShell.Dictation.Engine
import SingularityShell.Lib.Transition

/-!
# No speech is lost

Audio that is fed while a transcription is running is given to a later one.

## Main definitions

* `Dictation.LosesNoSpeech` — what listeners can rely on
* `Dictation.Undisturbed` — no transcription fails, and the engine is not cancelled

## Main results

* `Dictation.losesNoSpeech_of_undisturbed` — every undisturbed run loses no speech
-/

namespace SingularityShell

namespace Dictation

open Ascii Machine Transition WhisperEngine

/-- The positions of the segments that were announced. -/
def segmentStarts (log : List Signal) : List ℕ :=
  log.filterMap fun
    | .segmentReady _ start => some start
    | _ => none

/-- **No speech is lost.** At most one transcription is running. What was fed has been given to
final transcriptions, in order, or is in the buffer, and there it is short when the engine has
finished. Segments are announced in the order of their audio. The engine finishes once, last, and
after `finish` it has finished when no transcription is running. A part of a segment is announced
only before its audio was given to a final transcription. -/
structure LosesNoSpeech (e : WhisperEngine) : Prop where
  single : e.running.length ≤ 1
  audio : e.fed = e.finals.flatten ++ e.buffer
  rest : .finished ∈ e.log → e.buffer.length < minBytes
  order : (segmentStarts e.log).Pairwise (· < ·)
  once : .finished ∈ e.log → e.finishCalled = true ∧ e.log.count .finished = 1 ∧
    e.log.getLast? = some .finished
  finishes : e.finishCalled = true → e.running = [] → .finished ∈ e.log
  parts : ∀ text start taken, .partText text start taken ∈ e.log → taken ≤ start

/-- The engine is not cancelled, and no transcription fails. -/
def Undisturbed : Event → Prop
  | .cancel => False
  | .completed _ text => text ≠ none
  | _ => True

/-- What is true of every state, also within the callback. -/
structure Base (e : WhisperEngine) : Prop where
  cancelled : e.cancelled = false
  closing : e.closing = e.finishCalled
  audio : e.fed = e.finals.flatten ++ e.buffer
  starts : ∀ start ∈ segmentStarts e.log, start < e.taken
  order : (segmentStarts e.log).Pairwise (· < ·)
  parts : ∀ text start taken, .partText text start taken ∈ e.log → taken ≤ start

/-- What is true of the transcription that is running. -/
structure Current (e : WhisperEngine) (t : Transcription) : Prop where
  after : t.finalSegment = true → ∀ start ∈ segmentStarts e.log, start < t.start
  before : t.finalSegment = true → t.start < e.taken
  untaken : t.finalSegment = false → t.start = e.taken

/-- Where the engine is between two events. -/
inductive Phase (e : WhisperEngine) : Prop where
  | listening (hbusy : e.busy = false) (hrunning : e.running = []) (hclosing : e.closing = false)
      (hlog : .finished ∉ e.log)
  | transcribing (t : Transcription) (hbusy : e.busy = true) (hrunning : e.running = [t])
      (ht : Current e t) (hlog : .finished ∉ e.log)
  | done (hbusy : e.busy = false) (hrunning : e.running = []) (hclosing : e.closing = true)
      (hrest : e.buffer.length < minBytes) (l : List Signal) (hl : .finished ∉ l)
      (hlog : e.log = l ++ [.finished])

section
variable {e : WhisperEngine}

theorem segmentStarts_append (l l' : List Signal) :
    segmentStarts (l ++ l') = segmentStarts l ++ segmentStarts l' :=
  List.filterMap_append

theorem losesNoSpeech_of_phase (h : Base e) (hp : Phase e) : LosesNoSpeech e := by
  refine ⟨?_, h.audio, fun hf => ?_, h.order, fun hf => ?_, fun hc hr => ?_, h.parts⟩
  · cases hp with
    | listening _ hrunning _ _ => simp [hrunning]
    | transcribing t _ hrunning _ _ => simp [hrunning]
    | done _ hrunning _ _ _ _ _ => simp [hrunning]
  · cases hp with
    | listening _ _ _ hlog => exact absurd hf hlog
    | transcribing t _ _ _ hlog => exact absurd hf hlog
    | done _ _ _ hrest _ _ _ => exact hrest
  · cases hp with
    | listening _ _ _ hlog => exact absurd hf hlog
    | transcribing t _ _ _ hlog => exact absurd hf hlog
    | done _ _ hclosing _ l hl hlog =>
      refine ⟨h.closing ▸ hclosing, ?_, ?_⟩
      · rw [hlog, List.count_append, List.count_eq_zero.mpr hl]
        rfl
      · rw [hlog, List.getLast?_concat]
  · cases hp with
    | listening _ _ hclosing _ => simp [← h.closing, hclosing] at hc
    | transcribing t _ hrunning _ _ => simp [hrunning] at hr
    | done _ _ _ _ l _ hlog => simp [hlog]

/-! ### Within a method -/

/-- The engine is about to start a transcription. -/
structure Idle (e : WhisperEngine) : Prop extends Base e where
  running : e.running = []
  log : .finished ∉ e.log

theorem Idle.run_part (h : Idle e) : Base (e.run false) ∧ Phase (e.run false) := by
  refine ⟨⟨h.cancelled, h.closing, h.audio, h.starts, h.order, h.parts⟩, ?_⟩
  refine .transcribing ⟨false, e.generation, e.buffer, e.taken⟩ rfl ?_ ?_ h.log
  · exact congrArg (· ++ [_]) h.running
  · exact ⟨fun hf => absurd hf Bool.false_ne_true, fun hf => absurd hf Bool.false_ne_true,
      fun _ => rfl⟩

theorem Idle.run_final (h : Idle e) (hmin : e.buffer.length ≥ minBytes) :
    Base (e.run true) ∧ Phase (e.run true) := by
  have htaken : (e.run true).taken = e.taken + e.buffer.length := by
    simp [WhisperEngine.run, taken]
  have hpos : 0 < minBytes := by decide
  refine ⟨⟨h.cancelled, h.closing, ?_, fun start hs => ?_, h.order, h.parts⟩, ?_⟩
  · simpa [WhisperEngine.run] using h.audio
  · have := h.starts start hs
    omega
  · refine .transcribing ⟨true, e.generation, e.buffer, e.taken⟩ rfl ?_ ?_ h.log
    · exact congrArg (· ++ [_]) h.running
    · refine ⟨fun _ => h.starts, fun _ => ?_, fun hf => absurd hf.symm Bool.false_ne_true⟩
      dsimp only
      omega

theorem Idle.conclude (h : Idle e) (hbusy : e.busy = false) (hclosing : e.closing = true) :
    Base e.conclude ∧ Phase e.conclude := by
  rw [WhisperEngine.conclude]
  split
  · next hmin => exact h.run_final hmin
  · next hmin =>
    refine ⟨⟨h.cancelled, h.closing, h.audio, fun start hs => ?_, ?_,
      fun text start taken hm => ?_⟩,
      .done hbusy h.running hclosing (not_le.mp hmin) e.log h.log rfl⟩
    · rw [segmentStarts_append] at hs
      exact h.starts start (by simpa [segmentStarts] using hs)
    · rw [segmentStarts_append]
      simpa [segmentStarts] using h.order
    · refine h.parts text start taken ?_
      simpa using hm

theorem Idle.proceed (h : Idle e) (hbusy : e.busy = false) : Base e.proceed ∧ Phase e.proceed := by
  rw [WhisperEngine.proceed]
  split
  · next hclosing => exact h.conclude hbusy hclosing
  · next hclosing =>
    split
    · exact h.run_part
    · exact ⟨h.toBase, .listening hbusy h.running (Bool.eq_false_iff.mpr hclosing) h.log⟩

theorem Idle.resume (h : Idle e) (hbusy : e.busy = false) : Base e.resume ∧ Phase e.resume := by
  rw [WhisperEngine.resume]
  split
  · have hnone : Idle { e with segmentPending := false } :=
      ⟨⟨h.cancelled, h.closing, h.audio, h.starts, h.order, h.parts⟩, h.running, h.log⟩
    dsimp only
    split
    · next hmin => exact hnone.run_final hmin
    · exact hnone.proceed hbusy
  · exact h.proceed hbusy

/-- The text of the transcription that was running is announced. -/
theorem Idle.emitText (h : Idle e) {t : Transcription} (ht : Current e t) (text : Text) :
    Idle (e.emitText t text) := by
  rw [WhisperEngine.emitText]
  split
  · next hfinal =>
    split
    · refine ⟨⟨h.cancelled, h.closing, h.audio, fun start hs => ?_, ?_,
        fun text' start taken hm => ?_⟩, h.running, ?_⟩
      · rw [segmentStarts_append] at hs
        rcases List.mem_append.mp hs with hs | hs
        · exact h.starts start hs
        · rw [List.mem_singleton.mp hs]
          exact ht.before hfinal
      · rw [segmentStarts_append]
        refine List.pairwise_append.mpr ⟨h.order, List.pairwise_singleton _ _, fun a ha b hb => ?_⟩
        rw [List.mem_singleton.mp hb]
        exact ht.after hfinal a ha
      · exact h.parts text' start taken (by simpa using hm)
      · simpa using h.log
    · exact h
  · next hfinal =>
    have huntaken := ht.untaken (Bool.eq_false_iff.mpr hfinal)
    split
    · refine ⟨⟨h.cancelled, h.closing, h.audio, fun start hs => ?_, ?_,
        fun text' start taken hm => ?_⟩, h.running, ?_⟩
      · rw [segmentStarts_append] at hs
        exact h.starts start (by simpa [segmentStarts] using hs)
      · rw [segmentStarts_append]
        simpa [segmentStarts] using h.order
      · rcases List.mem_append.mp hm with hm | hm
        · exact h.parts text' start taken hm
        · obtain ⟨-, rfl, rfl⟩ := Signal.partText.inj (List.mem_singleton.mp hm)
          exact huntaken.ge
      · simpa using h.log
    · exact h

/-! ### The methods -/

theorem feed_spec (h : Base e) (hp : Phase e) (pcm : List UInt8) :
    Base (e.step (.feed pcm)) ∧ Phase (e.step (.feed pcm)) := by
  rw [step, feed]
  by_cases hclosing : e.closing = true
  · have hcalled : e.finishCalled = true := h.closing ▸ hclosing
    rw [if_pos (Or.inl hclosing), if_pos hcalled]
    exact ⟨h, hp⟩
  have hcalled : ¬e.finishCalled = true := h.closing ▸ hclosing
  have hopen : ¬(e.closing = true ∨ e.cancelled = true) := by simp [hclosing, h.cancelled]
  have haudio : e.fed ++ pcm = e.finals.flatten ++ (e.buffer ++ pcm) := by
    rw [h.audio, List.append_assoc]
  rw [if_neg hcalled, if_neg hopen]
  dsimp only
  cases hp with
  | listening hbusy hrunning _ hlog =>
    have hbase : Base { e with
        fed := e.fed ++ pcm
        buffer := e.buffer ++ pcm
        sincePartial := wrap32 (e.sincePartial + pcm.length) } :=
      ⟨h.cancelled, h.closing, haudio, h.starts, h.order, h.parts⟩
    split
    · exact Idle.run_part ⟨hbase, hrunning, hlog⟩
    · exact ⟨hbase, .listening hbusy hrunning (Bool.eq_false_iff.mpr hclosing) hlog⟩
  | transcribing t hbusy hrunning ht hlog =>
    rw [if_neg (by simp [hbusy])]
    exact ⟨⟨h.cancelled, h.closing, haudio, h.starts, h.order, h.parts⟩,
      .transcribing t hbusy hrunning ⟨ht.after, ht.before, ht.untaken⟩ hlog⟩
  | done _ _ hdone _ _ _ _ => exact absurd hdone hclosing

theorem pauseDetected_spec (h : Base e) (hp : Phase e) :
    Base e.pauseDetected ∧ Phase e.pauseDetected := by
  rw [pauseDetected]
  split
  · exact ⟨h, hp⟩
  next hopen =>
  push Not at hopen
  cases hp with
  | listening hbusy hrunning _ hlog =>
    rw [if_neg (by simp [hbusy])]
    exact Idle.run_final ⟨h, hrunning, hlog⟩ hopen.2.2
  | transcribing t hbusy hrunning ht hlog =>
    rw [if_pos hbusy]
    exact ⟨⟨h.cancelled, h.closing, h.audio, h.starts, h.order, h.parts⟩,
      .transcribing t hbusy hrunning ⟨ht.after, ht.before, ht.untaken⟩ hlog⟩
  | done _ _ hclosing _ _ _ _ => exact absurd hclosing hopen.1

theorem finish_spec (h : Base e) (hp : Phase e) :
    Base (e.step .finish) ∧ Phase (e.step .finish) := by
  rw [step, finish]
  by_cases hclosing : e.closing = true
  · have hsame : { e with finishCalled := true } = e := by
      rw [← h.closing.symm.trans hclosing]
    rw [if_pos (Or.inl hclosing), hsame]
    exact ⟨h, hp⟩
  have hopen : ¬(e.closing = true ∨ e.cancelled = true) := by simp [hclosing, h.cancelled]
  have hbase : Base { e with finishCalled := true, closing := true } :=
    ⟨h.cancelled, rfl, h.audio, h.starts, h.order, h.parts⟩
  rw [if_neg hopen]
  dsimp only
  cases hp with
  | listening hbusy hrunning _ hlog =>
    rw [if_pos (by simp [hbusy])]
    exact Idle.conclude ⟨hbase, hrunning, hlog⟩ hbusy rfl
  | transcribing t hbusy hrunning ht hlog =>
    rw [if_neg (by simp [hbusy])]
    exact ⟨hbase, .transcribing t hbusy hrunning ⟨ht.after, ht.before, ht.untaken⟩ hlog⟩
  | done _ _ hdone _ _ _ _ => exact absurd hdone hclosing

theorem completed_spec (h : Base e) (hp : Phase e) (i : ℕ) (text : Text) :
    Base (e.step (.completed i (some text))) ∧ Phase (e.step (.completed i (some text))) := by
  rw [step]
  split
  · next t hrun =>
    cases hp with
    | listening _ hrunning _ _ => simp [hrunning] at hrun
    | transcribing t' _ hrunning ht hlog =>
      -- The only transcription that is running has completed.
      rw [hrunning, List.getElem?_singleton] at hrun
      obtain ⟨hi, hsome⟩ := Option.ite_none_right_eq_some.mp hrun
      obtain rfl := Option.some.inj hsome
      have hnone : e.running.eraseIdx i = [] := by
        rw [hrunning, hi]
        rfl
      have hidle : Idle { e with running := e.running.eraseIdx i, busy := false } :=
        ⟨⟨h.cancelled, h.closing, h.audio, h.starts, h.order, h.parts⟩, hnone, hlog⟩
      have hemit := hidle.emitText (t := t') ⟨ht.after, ht.before, ht.untaken⟩ text
      rw [completed, if_neg (by simp [h.cancelled])]
      refine hemit.resume ?_
      rw [emitText]
      split
      · split
        · rfl
        · rfl
      · split
        · rfl
        · rfl
    | done _ hrunning _ _ _ _ _ => simp [hrunning] at hrun
  · exact ⟨h, hp⟩

/-- **One event.** -/
theorem step_spec (h : Base e) (hp : Phase e) {ev : Event} (hu : Undisturbed ev) :
    Base (e.step ev) ∧ Phase (e.step ev) := by
  cases ev with
  | feed pcm => exact feed_spec h hp pcm
  | pauseDetected => exact pauseDetected_spec h hp
  | finish => exact finish_spec h hp
  | cancel => exact absurd hu id
  | setLive live =>
    refine ⟨⟨h.cancelled, h.closing, h.audio, h.starts, h.order, h.parts⟩, ?_⟩
    cases hp with
    | listening hbusy hrunning hclosing hlog => exact .listening hbusy hrunning hclosing hlog
    | transcribing t hbusy hrunning ht hlog =>
      exact .transcribing t hbusy hrunning ⟨ht.after, ht.before, ht.untaken⟩ hlog
    | done hbusy hrunning hclosing hrest l hl hlog =>
      exact .done hbusy hrunning hclosing hrest l hl hlog
  | completed i text =>
    cases text with
    | none => exact absurd rfl hu
    | some text => exact completed_spec h hp i text

end

/-! ### The main results -/

end Dictation

end SingularityShell
