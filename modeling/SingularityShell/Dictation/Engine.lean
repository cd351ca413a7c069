import SingularityShell.Lib.Ascii
import SingularityShell.Lib.Machine

/-!
# The speech engine

The engine collects audio and has it transcribed by a process: the whole of it when the speaker
pauses or has finished, and what there is so far from time to time.

## Main definitions

* `Dictation.WhisperEngine` — the engine, with the transcriptions that are running
* `Dictation.WhisperEngine.feed`, `pauseDetected`, `finish`, `cancel`, `completed` — its methods
* `Dictation.WhisperEngine.step` — what can happen to it
-/

namespace SingularityShell

namespace Dictation

open Ascii Machine

/-- `PARTIAL_BYTES`, with 16000 samples in a second. -/
def partialBytes : ℕ := 16000 * 2 * 3 / 2

/-- `MIN_BYTES` -/
def minBytes : ℕ := 16000 * 2 / 2

/-- A transcription that is running: the arguments of `run` and what its callback captures. `start`
is the position of its audio in all that was fed. -/
structure Transcription where
  finalSegment : Bool
  generation : UInt32
  pcm : List UInt8
  start : ℕ

/-- A signal, with the position of the audio of its text in all that was fed. For a part of a
segment `taken` tells how much had been given to final transcriptions when the signal was emitted.
-/
inductive Signal where
  | segmentReady (text : Text) (start : ℕ)
  | partText (text : Text) (start taken : ℕ)
  | finished
  | failed
  deriving DecidableEq

/-- The engine. `running` lists the transcriptions that have not completed, `finals` the audio of
the final ones that were started, `fed` the audio that was fed before `finish` was called, and `log`
the signals so far. -/
structure WhisperEngine where
  live : Bool := true
  buffer : List UInt8 := []
  sincePartial : ℤ := 0
  busy : Bool := false
  closing : Bool := false
  cancelled : Bool := false
  segmentPending : Bool := false
  generation : UInt32 := 0
  running : List Transcription := []
  finals : List (List UInt8) := []
  fed : List UInt8 := []
  finishCalled : Bool := false
  log : List Signal := []

namespace WhisperEngine

variable (e : WhisperEngine)

/-- The number of bytes that were given to final transcriptions. -/
def taken : ℕ := e.finals.flatten.length

/-- `run`, up to the start of the transcription. -/
def run (finalSegment : Bool) : WhisperEngine :=
  let t : Transcription :=
    { finalSegment, generation := e.generation, pcm := e.buffer, start := e.taken }
  let e := { e with busy := true, sincePartial := 0, running := e.running ++ [t] }
  if finalSegment then
    { e with buffer := [], generation := e.generation + 1, finals := e.finals ++ [t.pcm] }
  else e

/-- `conclude` -/
def conclude : WhisperEngine :=
  if e.buffer.length ≥ minBytes then e.run true else { e with log := e.log ++ [.finished] }

/-- The audio is enough for a transcription of a part. -/
def partDue : Bool := e.live ∧ e.sincePartial ≥ partialBytes ∧ e.buffer.length ≥ minBytes

/-- `feed` -/
def feed (pcm : List UInt8) : WhisperEngine :=
  if e.closing ∨ e.cancelled then e
  else
    let e := { e with
      buffer := e.buffer ++ pcm, sincePartial := wrap32 (e.sincePartial + pcm.length) }
    if !e.busy ∧ e.partDue then e.run false else e

/-- `pause_detected` -/
def pauseDetected : WhisperEngine :=
  if e.closing ∨ e.cancelled ∨ e.buffer.length < minBytes then e
  else if e.busy then { e with segmentPending := true }
  else e.run true

/-- `finish` -/
def finish : WhisperEngine :=
  if e.closing ∨ e.cancelled then e
  else
    let e := { e with closing := true }
    if !e.busy then e.conclude else e

/-- `cancel` -/
def cancel : WhisperEngine := { e with cancelled := true }

/-- The end of the callback of `run`, when no segment is pending. -/
def proceed : WhisperEngine :=
  if e.closing then e.conclude else if e.partDue then e.run false else e

/-- The callback of `run` after its signal. -/
def resume : WhisperEngine :=
  if e.segmentPending then
    let e := { e with segmentPending := false }
    if e.buffer.length ≥ minBytes then e.run true else e.proceed
  else e.proceed

/-- What the callback of `run` emits for a text. -/
def emitText (t : Transcription) (text : Text) : WhisperEngine :=
  if t.finalSegment then
    if text ≠ [] then { e with log := e.log ++ [.segmentReady text t.start] } else e
  else if t.generation = e.generation ∧ text ≠ [] then
    { e with log := e.log ++ [.partText text t.start e.taken] }
  else e

/-- The callback of `run`. The text is nothing when the transcription has failed. -/
def completed (t : Transcription) (text : Option Text) : WhisperEngine :=
  let e := { e with busy := false }
  if e.cancelled then e
  else
    match text with
    | none => { e with log := e.log ++ [.failed] }
    | some text => (e.emitText t text).resume

end WhisperEngine

/-! ### Events -/

inductive Event where
  | feed (pcm : List UInt8)
  | pauseDetected
  | finish
  | cancel
  | setLive (live : Bool)
  | completed (i : ℕ) (text : Option Text)

/-- One event. A transcription that is running completes with any text. -/
def WhisperEngine.step (e : WhisperEngine) : Event → WhisperEngine
  | .feed pcm => { e with fed := if e.finishCalled then e.fed else e.fed ++ pcm }.feed pcm
  | .pauseDetected => e.pauseDetected
  | .finish => { e with finishCalled := true }.finish
  | .cancel => e.cancel
  | .setLive live => { e with live }
  | .completed i text =>
    match e.running[i]? with
    | some t => { e with running := e.running.eraseIdx i }.completed t text
    | none => e

end Dictation

end SingularityShell
