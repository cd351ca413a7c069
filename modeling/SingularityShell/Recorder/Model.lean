import Mathlib.Data.List.Basic
import Mathlib.Data.Nat.Notation
import SingularityShell.Lib.Ascii
import SingularityShell.Lib.Transition

/-!
# The recorder process

The process obtains a capture from the portal, starts a pipeline, and prints a line for each thing
that its parent has to know. A pipeline that fails is tried again without audio, and then with the
next encoder.

## Main definitions

* `Recorder.State` — what the process has obtained, what it has started and what it has printed
* `Recorder.startPipeline`, `Recorder.nextPlan` — the attempts
* `Recorder.finish`, `Recorder.cancel`, `Recorder.fail` — the three ends
* `Recorder.step` — one event from the portal, the pipeline or the parent
-/

namespace SingularityShell

namespace Recorder

open Ascii

structure EncoderPlan where
  encoder : Text
  muxer : Text
  extension : Text
  deriving DecidableEq

/-- `EncoderPlanner.candidates` -/
def candidates : List EncoderPlan :=
  [⟨ofString "vah264lpenc", ofString "mp4mux", ofString "mp4"⟩,
    ⟨ofString "vah264enc", ofString "mp4mux", ofString "mp4"⟩,
    ⟨ofString "vaapih264enc", ofString "mp4mux", ofString "mp4"⟩,
    ⟨ofString "x264enc", ofString "mp4mux", ofString "mp4"⟩,
    ⟨ofString "openh264enc", ofString "mp4mux", ofString "mp4"⟩,
    ⟨ofString "vp8enc", ofString "webmmux", ofString "webm"⟩]

/-- Why the recording failed. -/
inductive Failure where
  | elements
  | encoders
  | portal
  | source
  | start
  | stopped
  | nothing
  deriving DecidableEq

/-- A line that is printed. The size of the file that was saved is not part of the line. -/
inductive Line where
  | recording (path : Text)
  | warning
  | saved (path : Text) (size : ℕ)
  | cancelled
  | error (failure : Failure)
  deriving DecidableEq

/-- What `start` waits for. -/
inductive Phase where
  | unstarted
  | proxy
  | capture
  | complete
  deriving DecidableEq

/-- What is given up when an attempt fails. -/
inductive GivenUp where
  | audio
  | plan (index : ℕ)
  deriving DecidableEq

structure State where
  basePath : Text
  phase : Phase := .unstarted
  /-- Whether `portal` is set. -/
  portal : Bool := false
  captureHandle : UInt32 := 0
  /-- Whether `pipeline` is set. -/
  pipeline : Bool := false
  /-- Whether `bus_watch_id` is set. -/
  busWatch : Bool := false
  plans : List EncoderPlan := []
  planIndex : ℕ := 0
  withAudio : Bool := false
  outPath : Option Text := none
  announced : Bool := false
  stopping : Bool := false
  done : Bool := false
  encodedFrames : Int32 := 0
  /-- Whether `stop_timeout_id` is set. -/
  stopTimeout : Bool := false
  printed : List Line := []
  /-- The handles that `start_capture` returned, and those that `stop_capture` was given. -/
  obtained : List UInt32 := []
  stopped : List UInt32 := []
  givenUp : List GivenUp := []
  /-- The number of the calls of `start_pipeline`. -/
  attempts : ℕ := 0

/-- `emit` -/
def emit (line : Line) (s : State) : State := { s with printed := s.printed ++ [line] }

/-! ### The ends -/

/-- `teardown_pipeline` -/
def teardownPipeline (s : State) : State :=
  { s with stopTimeout := false, busWatch := false, pipeline := false }

/-- `release_capture` -/
def releaseCapture (s : State) : State :=
  if s.portal = false ∨ s.captureHandle = 0 then s
  else { s with captureHandle := 0, stopped := s.stopped ++ [s.captureHandle] }

/-- `fail` -/
def fail (failure : Failure) (s : State) : State :=
  if s.done then s
  else emit (.error failure) (releaseCapture (teardownPipeline { s with done := true }))

/-- `cancel` -/
def cancel (s : State) : State :=
  emit .cancelled { releaseCapture s with done := true }

/-- `finish`, with the size of the file, which is 0 when there is none. -/
def finish (size : ℕ) (s : State) : State :=
  if s.done then s
  else
    let s := releaseCapture (teardownPipeline s)
    match s.outPath with
    | some path =>
      if s.encodedFrames ≠ 0 ∧ 1024 < size then emit (.saved path size) { s with done := true }
      else fail .nothing s
    | none => fail .nothing s

/-! ### The attempts -/

/-- An attempt that fails: the description does not parse, or the pipeline does not start, after
some frames were encoded. -/
inductive Attempt where
  | unparsed
  | unstarted (frames : Int32)

/-- The path of the file that a plan writes. -/
def pathOf (basePath : Text) (plan : EncoderPlan) : Text := basePath ++ 46 :: plan.extension

/-- The head of `start_pipeline`: the path is chosen. -/
def choosePath (s : State) : State :=
  { s with
    outPath := (s.plans[s.planIndex]?).map (pathOf s.basePath)
    attempts := s.attempts + 1 }

/-- The choice of `next_plan_or_fail`: without audio, with the next plan, or none. -/
def nextPlan (s : State) : Option State :=
  if s.withAudio then
    some (emit .warning { s with withAudio := false, givenUp := s.givenUp ++ [.audio] })
  else if s.planIndex + 1 < s.plans.length then
    some { s with planIndex := s.planIndex + 1, givenUp := s.givenUp ++ [.plan s.planIndex] }
  else none

/-- What a failed attempt leaves, once it is torn down. -/
def abandon (attempt : Attempt) (s : State) : State :=
  match attempt with
  | .unparsed => teardownPipeline s
  | .unstarted frames => teardownPipeline { s with encodedFrames := s.encodedFrames + frames }

/-- `start_pipeline`, with the attempts that fail before one does not. -/
def startPipeline : List Attempt → State → State
  | [], s => { choosePath s with pipeline := true, busWatch := true }
  | attempt :: attempts, s =>
    match nextPlan (abandon attempt (choosePath s)) with
    | some s => startPipeline attempts s
    | none => fail .start (abandon attempt (choosePath s))

/-- `next_plan_or_fail` -/
def nextPlanOrFail (attempts : List Attempt) (s : State) : State :=
  match nextPlan (teardownPipeline s) with
  | some s => startPipeline attempts s
  | none => fail .start (teardownPipeline s)

/-! ### Events -/

inductive Event where
  /-- The process starts: whether base elements are missing, the plans that can be used, and whether
  audio is asked for and has its elements. -/
  | start (missing : Bool) (usable : EncoderPlan → Bool) (audio audioElements : Bool)
  /-- The proxy of the portal is there or not, and the source is found or not. -/
  | proxy (ok source : Bool)
  /-- `start_capture` returns. -/
  | captured (ok : Bool) (handle : UInt32) (attempts : List Attempt)
  /-- A stop line, the end of the input, or a signal. -/
  | stop
  /-- A frame is encoded. -/
  | frame
  /-- The pipeline reaches `PLAYING`. -/
  | playing
  | eos (size : ℕ)
  | error (size : ℕ) (attempts : List Attempt)
  | stopTimeout (size : ℕ)

/-- The beginning of `start`. -/
def start (missing : Bool) (usable : EncoderPlan → Bool) (audio audioElements : Bool) (s : State) :
    State :=
  let s := { s with phase := .complete }
  if missing then fail .elements s
  else
    let s := { s with plans := candidates.filter usable }
    if s.plans = [] then fail .encoders s
    else { s with withAudio := audio && audioElements, phase := .proxy }

/-- `start`, once the proxy is there. -/
def onProxy (ok source : Bool) (s : State) : State :=
  let s := { s with phase := .complete }
  if ok then
    let s := { s with portal := true }
    if source then { s with phase := .capture } else fail .source s
  else fail .portal s

/-- The end of `start`. -/
def onCaptured (ok : Bool) (handle : UInt32) (attempts : List Attempt) (s : State) : State :=
  let s := { s with phase := .complete }
  if ok then
    let s := { s with captureHandle := handle, obtained := s.obtained ++ [handle] }
    if s.stopping then cancel s else startPipeline attempts s
  else fail .portal s

/-- `request_stop` -/
def requestStop (s : State) : State :=
  if s.stopping ∨ s.done then s
  else if s.pipeline then { s with stopping := true, stopTimeout := true }
  else { s with stopping := true }

/-- `on_bus_message` for a change of the pipeline's state to `PLAYING`. -/
def onPlaying (s : State) : State :=
  if s.announced then s
  else
    match s.outPath with
    | some path => emit (.recording path) { s with announced := true }
    | none => { s with announced := true }

/-- `on_bus_message` for an error. -/
def onError (size : ℕ) (attempts : List Attempt) (s : State) : State :=
  let s := { s with busWatch := false }
  if s.encodedFrames = 0 ∧ s.stopping = false then nextPlanOrFail attempts s
  else if s.stopping = true ∧ 0 < s.encodedFrames then finish size s
  else fail .stopped (teardownPipeline s)

def step (s : State) : Event → State
  | .start missing usable audio audioElements =>
    if s.phase = .unstarted then start missing usable audio audioElements s else s
  | .proxy ok source => if s.phase = .proxy then onProxy ok source s else s
  | .captured ok handle attempts =>
    if s.phase = .capture then onCaptured ok handle attempts s else s
  | .stop => requestStop s
  | .frame => { s with encodedFrames := s.encodedFrames + 1 }
  | .playing => if s.busWatch then onPlaying s else s
  | .eos size => if s.busWatch then finish size { s with busWatch := false } else s
  | .error size attempts => if s.busWatch then onError size attempts s else s
  | .stopTimeout size => if s.stopTimeout then finish size { s with stopTimeout := false } else s

/-- The state after the events. -/
def run (basePath : Text) (events : List Event) : State := Transition.run step { basePath } events

end Recorder

end SingularityShell
