import SingularityShell.Lib.Binary64
import SingularityShell.Lib.Transition

/-!
# The lock screen

The lock screen draws one surface per output, takes the password and the answers of the fingerprint
sensor, and, once the user is authenticated, plays an animation and unlocks the session. The
animation is carried by the frame callbacks that each output asks for while it draws.

## Main definitions

* `Lock.Anim`, `Lock.Output`, `Lock.Fprint` — the animation, an output, the fingerprint sensor
* `Lock.State` — the state of the lock screen
* `Lock.step` — one event of the compositor, of the sensor or of the rest of the process
-/

namespace SingularityShell

namespace Lock

open Binary64

/-! ### Drawing -/

/-- `lock_phase` -/
inductive Phase where
  | idle
  | enter
  | leave
  deriving DecidableEq

/-- What one drawing finds: the time, and whether there is a buffer to draw into. -/
structure Render where
  now : ℤ
  buffer : Bool

/-- The settings of the animations. `atRest` tells whether the shake of the card has died down after
so many microseconds. -/
structure Motion where
  reduced : Bool
  scale : ℚ
  atRest : ℤ → Bool

structure Anim where
  phase : Phase
  start : Option ℤ := none
  ms : ℚ
  shakeStart : Option ℤ := none
  /-- What the next drawings find. After the last, there is no buffer. -/
  renders : List Render := []

structure Output where
  id : ℕ
  name : ℕ
  lockSurface : Bool := false
  configured : Bool := false
  /-- `frame_cb` is set: the output waits for the compositor's next frame. -/
  frameCb : Bool := false

/-- `MOTION_SMALL_MS` -/
def motionSmallMs : ℚ := 140

/-- `MOTION_LARGE_MS` -/
def motionLargeMs : ℚ := 320

/-- `MOTION_PAGE_MS` -/
def motionPageMs : ℚ := 380

variable (motion : Motion)

/-- `start_phase` -/
def startPhase (phase : Phase) (ms : ℚ) (a : Anim) : Anim :=
  { a with
    phase, start := none, ms := fl ((if motion.reduced then motionSmallMs else ms) * motion.scale) }

/-- `shake_offset`, of which only matters whether the shake goes on. -/
def shakeOffset (now : ℤ) (a : Anim) : Anim :=
  match a.shakeStart with
  | none => a
  | some start => if motion.atRest (now - start) then { a with shakeStart := none } else a

/-- The time that a phase has taken, in milliseconds. -/
def elapsed (now start : ℤ) : ℚ := fl (((now - start : ℤ) : ℚ) / 1000)

/-- The phase has run its time. -/
def Anim.finished (now : ℤ) (a : Anim) : Bool :=
  1 ≤ if a.ms > 0 then fl (elapsed now (a.start.getD now) / a.ms) else 1

/-- The part of `apply_motion` for the phase: whether its animation goes on. -/
def applyPhase (now : ℤ) (a : Anim) : Bool × Anim :=
  if a.phase = .idle then (false, a)
  else
    let started := { a with start := some (a.start.getD now) }
    if a.finished now then
      (false, if a.phase = .leave then started else { started with phase := .idle })
    else (true, started)

/-- `apply_motion`, without the values that are drawn: whether an animation goes on. -/
def applyMotion (now : ℤ) (a : Anim) : Bool × Anim :=
  let (animating, a) := applyPhase now a
  let a := shakeOffset motion now a
  (animating || a.shakeStart.isSome, a)

/-- What the next drawing finds. -/
def Anim.render (a : Anim) : Render := a.renders.headD ⟨0, false⟩

/-- `render_output` into a buffer. -/
def draw (now : ℤ) (o : Output) (a : Anim) : Output × Anim :=
  let (animating, a) := applyMotion motion now a
  ({ o with frameCb := animating || a.phase = .leave }, a)

/-- `render_output` -/
def renderOutput (o : Output) (a : Anim) : Output × Anim :=
  if o.frameCb then (o, a)
  else if a.render.buffer then draw motion a.render.now o { a with renders := a.renders.tail }
  else (o, { a with renders := a.renders.tail })

/-- `render_all` -/
def renderOutputs : List Output → Anim → List Output × Anim
  | [], a => ([], a)
  | o :: outputs, a =>
    let (o, a) := if o.configured then renderOutput motion o a else (o, a)
    let (outputs, a) := renderOutputs outputs a
    (o :: outputs, a)

/-! ### The fingerprint sensor -/

/-- An asynchronous call whose answer is outstanding. -/
inductive Call where
  | device
  | listEnrolledFingers
  | claim
  | verifyStart
  deriving DecidableEq

structure Fprint where
  cancellable : Bool := false
  device : Bool := false
  /-- The handler of the sensor's signals is connected. -/
  connected : Bool := false
  claimed : Bool := false
  verifying : Bool := false
  pending : List Call := []
  /-- This process has started a verification, and it has neither failed nor ended. -/
  verification : Bool := false

/-- `start_verify` -/
def startVerify (f : Fprint) : Fprint :=
  { f with pending := .verifyStart :: f.pending, verification := true }

/-- `restart_verify`, which stops the verification first. -/
def restartVerify (f : Fprint) : Fprint := if ¬f.device ∨ ¬f.claimed then f else startVerify f

/-- `lock_fprint_start` -/
def lockFprintStart (f : Fprint) : Fprint :=
  if f.cancellable then f else { f with cancellable := true, pending := .device :: f.pending }

/-- `lock_fprint_stop` -/
def lockFprintStop (f : Fprint) : Fprint :=
  { f with
    cancellable := false, device := false, claimed := false, verifying := false,
    verification := false }

/-! ### The lock screen -/

/-- A request to unlock the session: whether the session was locked and the user authenticated. -/
structure Unlock where
  locked : Bool
  authenticated : Bool
  deriving DecidableEq

structure State where
  anim : Anim
  outputs : List Output := []
  nextId : ℕ := 0
  locked : Bool := false
  running : Bool := true
  /-- `xkb_state` is set. -/
  keymap : Bool := false
  password : List UInt8 := []
  fprint : Fprint := {}
  /-- A password was accepted, or a finger in a verification of this process. -/
  authenticated : Bool := false
  unlocks : List Unlock := []

/-- `main`, up to the connection to the compositor. -/
def State.init : State :=
  { anim := startPhase motion .enter motionPageMs { phase := .idle, ms := 0 } }

def renderAll (s : State) : State :=
  let (outputs, anim) := renderOutputs motion s.outputs s.anim
  { s with outputs, anim }

/-- Some output is configured. -/
def State.any (s : State) : Bool := s.outputs.any (·.configured)

/-- `unlock_session`. The events that its roundtrip dispatches are the next events of the run. -/
def unlockSession (s : State) : State :=
  { s with
    fprint := lockFprintStop s.fprint, unlocks := s.unlocks ++ [⟨s.locked, s.authenticated⟩],
    running := false }

/-- `begin_leave` -/
def beginLeave (s : State) : State :=
  if s.anim.phase = .leave then s
  else if s.any then renderAll motion { s with
    anim := startPhase motion .leave motionLargeMs { s.anim with shakeStart := none } }
  else unlockSession s

/-- `on_fprint_match` -/
def onFprintMatch (s : State) : State := beginLeave motion (renderAll motion s)

/-- `on_fprint_status` -/
def onFprintStatus (s : State) : State :=
  if 0 < s.password.length then s else renderAll motion s

/-- The card shakes after a wrong password. -/
def shake (now : ℤ) (a : Anim) : Anim :=
  if motion.reduced then a else { a with shakeStart := some now }

/-- `submit_password`, where `rc` is what `singularity_pam_authenticate` returns. -/
def submitPassword (rc now : ℤ) (s : State) : State :=
  if s.password.length = 0 then s
  else
    let s := { renderAll motion s with password := [] }
    if rc = 0 then beginLeave motion { s with authenticated := true }
    else renderAll motion { s with anim := shake motion now s.anim }

/-! ### Signals and answers of the sensor -/

/-- The results of `VerifyStatus`. -/
inductive VerifyResult where
  | verifyMatch
  | verifyNoMatch
  | verifySwipeTooShort
  | verifyFingerNotCentered
  | verifyRemoveAndRetry
  | verifyRetryScan
  | verifyDisconnected
  | other
  deriving DecidableEq

/-- `on_signal` -/
def onSignal (result : VerifyResult) (done : Bool) (s : State) : State :=
  let ended := { s.fprint with verification := s.fprint.verification && !done }
  match result with
  | .verifyMatch =>
    onFprintMatch motion { s with
      fprint := { s.fprint with verifying := false, verification := false },
      authenticated := s.authenticated || (s.fprint.claimed && s.fprint.verification) }
  | .verifyDisconnected =>
    onFprintStatus motion { s with
      fprint := { s.fprint with verifying := false, verification := false } }
  | result =>
    let s := { s with fprint := ended }
    let s := if result = .other then s else onFprintStatus motion s
    if done then { s with fprint := restartVerify s.fprint } else s

/-- `on_device`, `on_fingers`, `on_claimed` and `on_verify_started`: what the sensor has after the
answer to a call. `fingers` is the number of enrolled fingers. -/
def answered (f : Fprint) (ok : Bool) (fingers : ℕ) : Call → Fprint
  | .device =>
    if ok then { f with
      device := true, connected := true, pending := .listEnrolledFingers :: f.pending }
    else f
  | .listEnrolledFingers =>
    if ok ∧ fingers ≠ 0 then { f with pending := .claim :: f.pending } else f
  | .claim => if ok then startVerify { f with claimed := true } else f
  | .verifyStart =>
    if ok then { f with verifying := true }
    else { f with verifying := false, verification := .verifyStart ∈ f.pending }

/-- The answer to a call, which is an error once the calls are cancelled. -/
def onReply (call : Call) (ok : Bool) (fingers : ℕ) (s : State) : State :=
  if call ∈ s.fprint.pending then
    let f := { s.fprint with pending := s.fprint.pending.erase call }
    let s := { s with fprint := answered f (ok && f.cancellable) fingers call }
    if call = .verifyStart ∧ (ok && f.cancellable) then onFprintStatus motion s else s
  else s

/-! ### Events of the compositor -/

/-- Apply to the first output with the number. -/
def withOutput (id : ℕ) (f : Output → Anim → Output × Anim) :
    List Output → Anim → List Output × Anim
  | [], a => ([], a)
  | o :: outputs, a =>
    if o.id = id then
      let (o, a) := f o a
      (o :: outputs, a)
    else
      let (outputs, a) := withOutput id f outputs a
      (o :: outputs, a)

/-- `create_lock_surface` -/
def createLockSurface (o : Output) : Output := { o with lockSurface := true }

/-- `lock_surface_configure`, for an output with a lock surface. -/
def configure (o : Output) (a : Anim) : Output × Anim :=
  if o.lockSurface then renderOutput motion { o with configured := true } a else (o, a)

def lockSurfaceConfigure (id : ℕ) (s : State) : State :=
  let (outputs, anim) := withOutput id (configure motion) s.outputs s.anim
  { s with outputs, anim }

/-- `lock_locked` -/
def lockLocked (s : State) : State :=
  { s with locked := true, outputs := s.outputs.map createLockSurface }

/-- `lock_finished` -/
def lockFinished (s : State) : State := { s with running := false }

/-- The leave phase has run its time. -/
def Anim.over (now : ℤ) (a : Anim) : Prop :=
  a.phase = .leave ∧ ∃ start ∈ a.start, elapsed now start ≥ a.ms

instance (now : ℤ) (a : Anim) : Decidable (a.over now) := inferInstanceAs (Decidable (_ ∧ _))

/-- The output waits for the compositor's next frame. -/
def State.waits (id : ℕ) (s : State) : Bool := (s.outputs.find? (·.id = id)).any (·.frameCb)

/-- `frame_done` -/
def frameDone (id : ℕ) (now : ℤ) (s : State) : State :=
  if s.waits id then
    if s.anim.over now then
      let (outputs, anim) := withOutput id (fun o a =>
        ({ o with frameCb := false }, { a with phase := .idle })) s.outputs s.anim
      unlockSession { s with outputs, anim }
    else
      let (outputs, anim) := withOutput id (fun o a =>
        renderOutput motion { o with frameCb := false } a) s.outputs s.anim
      { s with outputs, anim }
  else s

/-- `reg_global`, for an output. -/
def regGlobal (name : ℕ) (s : State) : State :=
  let o : Output := { id := s.nextId, name }
  { s with
    outputs := (if s.locked then createLockSurface o else o) :: s.outputs, nextId := s.nextId + 1 }

/-- `reg_remove` -/
def regRemove (name : ℕ) (s : State) : State :=
  if s.outputs.any (·.name = name) then
    let s := { s with outputs := s.outputs.eraseP (·.name = name) }
    if s.anim.phase = .leave ∧ ¬s.any then unlockSession s else s
  else s

/-- The keys that `kb_key` tells apart. -/
inductive Key where
  | enter
  | backSpace
  | escape
  | media
  | text (bytes : List UInt8)

/-- `sizeof password` -/
def passwordSize : ℕ := 1024

/-- The switch of `kb_key`. -/
def pressed (rc now : ℤ) (s : State) : Key → State
  | .enter => submitPassword motion rc now s
  | .backSpace => renderAll motion { s with password := s.password.dropLast }
  | .escape => renderAll motion { s with password := [] }
  | .media => s
  | .text bytes =>
    if bytes ≠ [] ∧ bytes.headD 0 ≥ 0x20 ∧ s.password.length + bytes.length < passwordSize - 1 then
      renderAll motion { s with password := s.password ++ bytes }
    else s

/-- `kb_key`, for a key that is pressed. -/
def kbKey (key : Key) (rc now : ℤ) (s : State) : State :=
  if s.keymap ∧ s.anim.phase ≠ .leave then pressed motion rc now s key else s

/-! ### Runs -/

inductive Kind where
  | output (name : ℕ)
  | remove (name : ℕ)
  | locked
  | finished
  | configure (id : ℕ)
  | frame (id : ℕ) (now : ℤ)
  | keymap
  | key (key : Key) (rc now : ℤ)
  | fprintStart
  | reply (call : Call) (ok : Bool) (fingers : ℕ)
  | signal (result : VerifyResult) (done : Bool)
  | repaint

/-- An event, and what the drawings find that it makes. -/
structure Event where
  kind : Kind
  renders : List Render := []

def handle (s : State) : Kind → State
  | .output name => regGlobal name s
  | .remove name => regRemove name s
  | .locked => lockLocked s
  | .finished => lockFinished s
  | .configure id => lockSurfaceConfigure motion id s
  | .frame id now => frameDone motion id now s
  | .keymap => { s with keymap := true }
  | .key key rc now => kbKey motion key rc now s
  | .fprintStart => { s with fprint := lockFprintStart s.fprint }
  | .reply call ok fingers => onReply motion call ok fingers s
  | .signal result done => if s.fprint.connected then onSignal motion result done s else s
  | .repaint => renderAll motion s

def step (s : State) (e : Event) : State :=
  handle motion { s with anim := { s.anim with renders := e.renders } } e.kind

abbrev run : State → List Event → State := Transition.run (step motion)

end Lock

end SingularityShell
