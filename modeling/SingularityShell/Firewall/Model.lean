import SingularityShell.Lib.CString
import SingularityShell.Lib.Transition

/-!
# The firewall helper

The privileged helper keeps the rules of the firewall in a file of one line a rule. Each command
reads the file, changes the state and writes it again.

## Main definitions

* `Firewall.Rule`, `Firewall.State` — what the file stores
* `Firewall.validId`, `validPorts`, `validLabel` — what a rule may hold
* `Firewall.loadState`, `Firewall.saveState` — the file read and written
* `Firewall.command`, `Firewall.World.step` — one command, and one run of the helper
-/

namespace SingularityShell

namespace Firewall

open Ascii CString

/-- `MAX_RULES` -/
def maxRules : ℕ := 64

structure Rule where
  id : Text
  publicToo : Bool
  ports : Text
  label : Text
  deriving DecidableEq

structure State where
  enabled : Bool := false
  publicProfile : Bool := false
  rules : List Rule := []
  deriving DecidableEq

/-! ### Validation -/

def validId (id : Text) : Bool :=
  id.length ≠ 0 && id.length ≤ 32 &&
    id.all fun c => (97 ≤ c && c ≤ 122) || isDigit c || c == 45

/-- No control byte, `"` or `\`. -/
def validLabel (label : Text) : Bool :=
  label.length ≠ 0 && label.length ≤ 64 &&
    label.all fun c => !(c < 32 || c == 34 || c == 92 || c == 127)

def validNumber (s : Text) : Option ℕ :=
  if s.length = 0 ∨ 5 < s.length then none
  else if s.all isDigit then
    if value s < 1 ∨ 65535 < value s then none else some (value s)
  else none

/-- What stands before the first `/`. -/
def portOf (item : Text) : Text := item.takeWhile (· ≠ 47)

/-- What stands after the first `/`. -/
def protoOf (item : Text) : Text := (item.dropWhile (· ≠ 47)).tail

def validPortItem (item : Text) : Bool :=
  if 47 ∉ item then false
  else if ¬(protoOf item = ofString "tcp" ∨ protoOf item = ofString "udp") then false
  else if 45 ∉ portOf item then (validNumber (portOf item)).isSome
  else
    match validNumber ((portOf item).takeWhile (· ≠ 45)),
      validNumber ((portOf item).dropWhile (· ≠ 45)).tail with
    | some a, some b => a < b
    | _, _ => false

def validPorts (ports : Text) : Bool :=
  ports.length ≠ 0 && ports.length ≤ 255 && (ports.splitOn 44).all validPortItem

/-! ### The state file -/

/-- The rule on a line, unless a field is missing or refused. -/
def parseRule (line : Text) : Option Rule := do
  let (id, save) ← strtok 32 (line.drop 5)
  let (pub, save) ← strtok 32 save
  let (ports, label) ← strtok 32 save
  guard (validId id && validPorts ports && validLabel label)
  return {
    id := snprintf 33 id
    publicToo := pub = ofString "1"
    ports := snprintf 256 ports
    label := snprintf 65 label }

/-- One turn of the loop of `load_state`, for what `fgets` has put into the buffer. -/
def readLine (st : State) (buf : Text) : State :=
  let line := (cstr buf).takeWhile (· ≠ 10)
  if (ofString "enabled ").isPrefixOf line then
    { st with enabled := line.drop 8 = ofString "1" }
  else if (ofString "profile ").isPrefixOf line then
    { st with publicProfile := line.drop 8 = ofString "public" }
  else if (ofString "rule ").isPrefixOf line ∧ st.rules.length < maxRules then
    match parseRule line with
    | none => st
    | some r => { st with rules := st.rules ++ [r] }
  else st

/-- The state in a file, or the one to start with when there is none. -/
def loadState : Option Text → State
  | none => {}
  | some bytes => (fgetsAll 512 bytes).foldl readLine {}

/-- `%d` of a flag. -/
def flag (b : Bool) : Text := ofString (if b then "1" else "0")

def Rule.line (r : Rule) : Text :=
  ofString "rule " ++ r.id ++ ofString " " ++ flag r.publicToo ++ ofString " " ++ r.ports ++
    ofString " " ++ r.label

/-- What `save_state` writes and `status` prints, line by line. -/
def State.lines (st : State) : List Text :=
  (ofString "enabled " ++ flag st.enabled) ::
    (ofString "profile " ++ ofString (if st.publicProfile then "public" else "home")) ::
      st.rules.map Rule.line

def saveState (st : State) : Text := st.lines.flatMap (· ++ [10])

/-! ### Commands -/

/-- What comes of a command: an exit code with the texts printed, `apply` for the state as it is,
or a new state to save and apply. -/
inductive Reply where
  | exits (code : ℕ) (out err : Text)
  | applies
  | stores (st : State)
  deriving DecidableEq

def usage : Reply := .exits 2 []
  (ofString "usage: singularity-firewall-helper status | apply | enable | disable | " ++
    ofString "profile home|public |\n       allow ID PUBLIC PORTS LABEL | revoke ID\n")

/-- The last rule of an id. -/
def slotOf (rules : List Rule) (id : Text) : Option ℕ :=
  rules.zipIdx.foldl (fun slot r => if r.1.id = id then some r.2 else slot) none

def allow (st : State) (id pub ports label : Text) : Reply :=
  if !validId id || (pub ≠ ofString "0" && pub ≠ ofString "1") || !validPorts ports ||
      !validLabel label then
    .exits 2 [] (ofString "invalid rule\n")
  else
    let r : Rule :=
      { id := snprintf 33 id
        publicToo := pub = ofString "1"
        ports := snprintf 256 ports
        label := snprintf 65 label }
    match slotOf st.rules id with
    | some slot => .stores { st with rules := st.rules.set slot r }
    | none =>
      if maxRules ≤ st.rules.length then .exits 1 [] (ofString "too many rules\n")
      else .stores { st with rules := st.rules ++ [r] }

def command (st : State) (cmd : Text) (args : List Text) : Reply :=
  if cmd = ofString "status" ∧ args.length = 0 then .exits 0 (saveState st) []
  else if cmd = ofString "apply" ∧ args.length = 0 then .applies
  else if cmd = ofString "enable" ∧ args.length = 0 then .stores { st with enabled := true }
  else if cmd = ofString "disable" ∧ args.length = 0 then .stores { st with enabled := false }
  else if cmd = ofString "profile" then
    match args with
    | [name] =>
      if name = ofString "home" ∨ name = ofString "public" then
        .stores { st with publicProfile := name = ofString "public" }
      else usage
    | _ => usage
  else if cmd = ofString "allow" then
    match args with
    | [id, pub, ports, label] => allow st id pub ports label
    | _ => usage
  else if cmd = ofString "revoke" then
    match args with
    | [id] =>
      if validId id then .stores { st with rules := st.rules.filter (·.id ≠ id) } else usage
    | _ => usage
  else usage

/-! ### Runs of the helper -/

/-- One run of the helper: its command after the options, whether `--dry-run` is given, whether
the file can be read and written, and the exit code of `apply`. -/
structure Invocation where
  cmd : Text
  args : List Text := []
  dryRun : Bool := false
  reads : Bool := true
  saves : Bool := true
  applied : ℕ := 0

/-- The state file, and the state that the last command stored. -/
structure World where
  file : Option Text := none
  stored : State := {}

/-- The exit code of a run, and the world after it. -/
def World.main (w : World) (i : Invocation) : ℕ × World :=
  if !i.reads then (1, w)
  else
    match command (loadState w.file) i.cmd i.args with
    | .exits code _ _ => (code, w)
    | .applies => (i.applied, w)
    | .stores st =>
      if i.dryRun then (i.applied, w)
      else if !i.saves then (1, w)
      else (i.applied, { file := some (saveState st), stored := st })

def World.step (w : World) (i : Invocation) : World := (w.main i).2

end Firewall

end SingularityShell
