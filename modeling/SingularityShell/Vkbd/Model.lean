import SingularityShell.Lib.Transition
import SingularityShell.Vkbd.Keymap

/-!
# Typing text

Texts wait in a queue. The one at its head is typed in runs: a run is looked up, the keymap that it
needs is uploaded, and its keys are pressed when the timer fires again.

## Main definitions

* `Vkbd.State` — the queue, the run that waits for its keymap, and what was sent
* `Vkbd.runJob` — one step of the timer
* `Vkbd.step` — one event from the timer or the rest of the shell
* `Vkbd.seen` — what the compositor has seen of what was sent
-/

namespace SingularityShell

namespace Vkbd

/-- `TypeJob`: a text, with the number of the timer's steps that it took and the number of the
characters at its end that were dropped. -/
structure Job where
  chars : List Char
  pos : ℕ := 0
  steps : ℕ := 0
  dropped : ℕ := 0

inductive Uploaded where
  | none
  | layout
  | custom
  deriving DecidableEq

/-- What is sent to the compositor. A key carries the keymap in which its code was looked up. -/
inductive Request where
  | keymap (map : Map)
  | modifiers (mask : UInt32)
  | key (code : UInt32) (pressed : Bool) (source : Map)

structure State where
  jobs : List Job := []
  /-- Whether `job_timer` is set. -/
  jobTimer : Bool := false
  batchKeys : List Char := []
  runEnd : ℕ := 0
  runPending : Bool := false
  runInLayout : Bool := false
  uploaded : Uploaded := .none
  /-- The keymap of which `layout_keys` is the table. -/
  layout : Option Keymap := none
  /-- The keymap of which `layout_text` is the text. -/
  layoutText : Option Keymap := none
  sent : List Request := []
  /-- The texts that were queued. -/
  queued : List (List Char) := []
  /-- The jobs that were taken from the queue. -/
  finished : List Job := []

variable (xkb : Xkb)

/-! ### The layout -/

/-- `singularity_type_text_set_layout`. The keymap may fail to compile, and its text to be made. -/
def setLayout (keymap : Option Keymap) (hasText : Bool) (s : State) : State :=
  match keymap with
  | none => s
  | some k =>
    { s with
      layout := some k
      layoutText := if hasText then some k else none
      uploaded := if s.uploaded = .layout then .none else s.uploaded }

/-- `layout_key` -/
def layoutKey (s : State) (c : Char) : Option LayoutKey :=
  s.layout.bind fun k => lookup (layoutTable xkb k) (newline c)

/-! ### Runs -/

/-- `batch_index` -/
def batchIndex (s : State) (c : Char) : Option ℕ :=
  if c ∈ s.batchKeys then some (s.batchKeys.idxOf c) else none

/-- `upload_layout` -/
def uploadLayout (alloc : Bool) (s : State) : Bool × State :=
  match s.layoutText with
  | none => (false, s)
  | some k =>
    if alloc then
      (true, { s with sent := s.sent ++ [.keymap (.layout k), .modifiers 0], uploaded := .layout })
    else (false, s)

/-- The loop of `upload_custom`: the keys of the batch, and where the run ends. -/
def collect (s : State) : List Char → List Char → ℕ → List Char × ℕ
  | [], batch, stop => (batch, stop)
  | c :: rest, batch, stop =>
    if (layoutKey xkb s c).isSome then (batch, stop)
    else if c ∈ batch then collect s rest batch (stop + 1)
    else if batch.length = Vkbd.batchKeys then (batch, stop)
    else collect s rest (batch ++ [c]) (stop + 1)

/-- `upload_custom` -/
def uploadCustom (alloc : Bool) (job : Job) (s : State) : Bool × State :=
  let run := collect xkb s (job.chars.drop job.pos) [] job.pos
  let s := { s with batchKeys := run.1, runEnd := run.2 }
  if alloc then
    (true, { s with
      sent := s.sent ++ [.keymap (.custom (makeKeymap s.batchKeys)), .modifiers 0]
      uploaded := .custom })
  else (false, s)

/-- `press` -/
def press (code mask : UInt32) (source : Map) (s : State) : State :=
  { s with sent := s.sent ++ [.modifiers mask, .key code true source, .key code false source] ++
      if mask ≠ 0 then [.modifiers 0] else [] }

/-- The body of the loop of `press_run`. -/
def pressChar (s : State) (c : Char) : State :=
  if s.runInLayout then
    match s.layout, layoutKey xkb s c with
    | some k, some key => press key.code key.mask (.layout k) s
    | _, _ => s
  else
    match batchIndex s c with
    | some index => press (UInt32.ofNat index + 1) 0 (.custom (makeKeymap s.batchKeys)) s
    | none => s

/-- `press_run` -/
def pressRun (job : Job) (s : State) : Job × State :=
  ({ job with pos := s.runEnd },
    ((job.chars.take s.runEnd).drop job.pos).foldl (pressChar xkb) s)

/-! ### The timer -/

/-- The end of `run_job`: the job is taken from the queue when it is done, and the timer is set as
long as there are jobs. -/
def settle (rest : List Job) (job : Job) (s : State) : State :=
  if job.chars.length ≤ job.pos then
    { s with jobs := rest, finished := s.finished ++ [job], jobTimer := !rest.isEmpty }
  else { s with jobs := job :: rest, jobTimer := true }

/-- The keymap is uploaded, and the run waits for the timer. -/
def await (rest : List Job) (job : Job) (s : State) : State :=
  { s with jobs := job :: rest, runPending := true, jobTimer := true }

/-- The run of the characters that the layout has. -/
def layoutRun (job : Job) (s : State) : ℕ :=
  job.pos + ((job.chars.drop job.pos).takeWhile fun c => (layoutKey xkb s c).isSome).length

/-- The branch of `run_job` for a character of the layout. -/
def startLayout (alloc : Bool) (rest : List Job) (job : Job) (s : State) : State :=
  let s := { s with runEnd := layoutRun xkb job s, runInLayout := true }
  if s.uploaded ≠ .layout ∧ (uploadLayout alloc s).1 then await rest job (uploadLayout alloc s).2
  else
    let pressed := pressRun xkb job s
    settle rest pressed.1 pressed.2

/-- The branch of `run_job` for any other character. -/
def startCustom (alloc : Bool) (rest : List Job) (job : Job) (s : State) : State :=
  let s := { s with runInLayout := false }
  let upload := uploadCustom xkb alloc job s
  if upload.1 then await rest job upload.2
  else
    settle rest { job with pos := job.chars.length, dropped := job.chars.length - job.pos } upload.2

/-- `run_job` -/
def runJob (alloc : Bool) (s : State) : State :=
  match s.jobs with
  | [] => { s with jobTimer := false }
  | job :: rest =>
    let job := { job with steps := job.steps + 1 }
    if s.runPending then
      let pressed := pressRun xkb job { s with runPending := false }
      settle rest pressed.1 pressed.2
    else
      match job.chars.drop job.pos with
      | [] => settle rest job s
      | c :: _ =>
        if (layoutKey xkb s c).isSome ∧ s.layoutText.isSome then startLayout xkb alloc rest job s
        else startCustom xkb alloc rest job s

/-- `singularity_type_text`, where `ready` is what `ensure_vkbd` returns. -/
def typeText (text : List Char) (ready alloc : Bool) (s : State) : State :=
  if text = [] ∨ ready = false then s
  else
    let s := { s with jobs := s.jobs ++ [{ chars := text }], queued := s.queued ++ [text] }
    if s.jobTimer = false ∧ s.jobs.length = 1 then runJob xkb alloc s else s

/-! ### Events -/

inductive Event where
  | setLayout (keymap : Option Keymap) (hasText : Bool)
  | typeText (text : List Char) (ready alloc : Bool)
  | timer (alloc : Bool)

def step (s : State) : Event → State
  | .setLayout keymap hasText => setLayout keymap hasText s
  | .typeText text ready alloc => typeText xkb text ready alloc s
  | .timer alloc => if s.jobTimer then runJob xkb alloc s else s

/-- The state after the events. -/
def run (events : List Event) : State := Transition.run (step xkb) {} events

/-! ### What the compositor sees -/

/-- A key press: the keymap that was uploaded last, the modifiers that were sent last, the code, and
the keymap in which the code was looked up. -/
structure Press where
  current : Option Map
  mask : UInt32
  code : UInt32
  source : Map

/-- What a client reads from a press. -/
def Press.decode (p : Press) : ℕ := (p.current.map (decodeKey xkb p.code p.mask)).getD 0

/-- The keymap and the modifiers that hold, and the presses. -/
structure Seen where
  current : Option Map := none
  mask : UInt32 := 0
  presses : List Press := []

def Seen.observe (seen : Seen) : Request → Seen
  | .keymap map => { seen with current := some map }
  | .modifiers mask => { seen with mask }
  | .key code true source =>
    { seen with presses := seen.presses ++ [⟨seen.current, seen.mask, code, source⟩] }
  | .key _ false _ => seen

def State.seen (s : State) : Seen := s.sent.foldl Seen.observe {}

end Vkbd

end SingularityShell
