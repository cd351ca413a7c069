import Mathlib.Data.List.Nodup
import SingularityShell.Lib.CString
import SingularityShell.Lib.Numeral
import SingularityShell.Lib.Path
import SingularityShell.Lib.Transition

/-!
# Ending processes

`ProcessTerminator` collects processes and ends them: it asks each with `SIGTERM`, waits for a
grace time, and kills those that are left. Between its looks at `/proc` processes end and their
numbers are given to others, which it tells apart by the time at which they started.

## Main definitions

* `ProcessTerminator.Process`, `ProcessTerminator.World` — the processes, and what can be read of
  them
* `ProcessTerminator.maySignal` — which processes may be signalled
* `ProcessTerminator.add`, `ProcessTerminator.signalAll`, `ProcessTerminator.look` — what the code
  does at one time
* `ProcessTerminator.step` — a call, or the end of a wait
* `ProcessTerminator.Sound` — what is expected of the signals and of the result

## Main results

* `ProcessTerminator.startTime_eq`, `ProcessTerminator.isZombie_iff` — the fields are read for every
  command name
* `ProcessTerminator.signalAll_spec` — a pass reaches exactly the processes that are still the same
* `ProcessTerminator.sound_of_guarded` — in which runs the signals and the result are as expected
* `ProcessTerminator.waits_forever` — the time waited wraps around
-/

namespace SingularityShell

namespace ProcessTerminator

open Ascii Machine Numeral

/-! ### Processes -/

/-- The letter in `/proc/PID/stat`. -/
inductive TaskState where
  | running | sleeping | waiting | stopped | traced | zombie | dead | idle
  deriving DecidableEq

def TaskState.letter : TaskState → UInt8
  | .running => 82
  | .sleeping => 83
  | .waiting => 68
  | .stopped => 84
  | .traced => 116
  | .zombie => 90
  | .dead => 88
  | .idle => 73

structure Process where
  /-- any bytes, blanks and parentheses too -/
  comm : Text
  state : TaskState
  parent : ℕ
  /-- the fields between the parent and the start time -/
  middle : List ℤ
  started : ℕ
  /-- the fields after the start time -/
  after : List ℤ
  uid : ℕ
  /-- `/proc/PID/cgroup` -/
  cgroup : Text
  parent_lt : parent < 2 ^ 31
  started_lt : started < 2 ^ 64
  length_middle : middle.length = 17
  after_ne : after ≠ []

/-- The fields after the command. -/
def Process.fields (p : Process) : List Text :=
  [p.state.letter] :: decimal p.parent :: (p.middle.map signed ++ decimal p.started ::
    p.after.map signed)

/-- `/proc/PID/stat`, as the kernel writes it. -/
def Process.stat (pid : ℤ) (p : Process) : Text :=
  signed pid ++ [32, 40] ++ p.comm ++ [41, 32] ++ [32].intercalate p.fields ++ [10]

/-- What is there at one time. -/
structure World where
  processes : ℤ → Option Process
  /-- `cgroup.procs` of a control group -/
  procs : Text → Option Text
  /-- whether `kill` can signal a process -/
  permits : ℤ → Bool
  pos : ∀ pid p, processes pid = some p → 0 < pid
  /-- the first process has no other above it -/
  init : ∀ p, processes 1 = some p → p.parent = 0

variable (w : World) (pid : ℤ)

/-- `get_contents` of `/proc/PID/stat` -/
def World.stat : Option Text := (w.processes pid).map (·.stat pid)

/-- `last_index_of_char` -/
def lastIndex (c : UInt8) (text : Text) : ℤ :=
  if c ∈ text then text.length - 1 - text.reverse.idxOf c else -1

/-- `stat.substring(close + 2).split(" ")` -/
def fieldsOf (stat : Text) : List Text :=
  (stat.drop (lastIndex 41 stat + 2).toNat).splitOn 32

/-- `start_time` -/
def startTime : ℕ :=
  match w.stat pid with
  | none => 0
  | some stat =>
    if lastIndex 41 stat < 0 then 0
    else if (fieldsOf stat).length < 20 then 0
    else strtoull ((fieldsOf stat).getD 19 [])

/-- `parent_of` -/
def parentOf : ℤ :=
  match w.stat pid with
  | none => 0
  | some stat =>
    if lastIndex 41 stat < 0 then 0
    else if 1 < (fieldsOf stat).length then atoi ((fieldsOf stat).getD 1 []) else 0

/-- `is_zombie` -/
def isZombie : Bool :=
  match w.stat pid with
  | none => true
  | some stat => lastIndex 41 stat < 0 || (stat.drop (lastIndex 41 stat + 2).toNat).head? = some 90

/-! ### Which processes may be signalled -/

/-- The shell and the terminator it has made. -/
structure Terminator where
  graceMs : ℕ
  /-- the shell -/
  self : ℤ
  uid : ℕ
  graceMs_lt : graceMs < 2 ^ 32
  self_pos : 1 < self

variable (t : Terminator)

/-- The loop of `is_ancestor_of_self`, with the levels that are left and the process that is
looked at. -/
def isAncestorFrom : ℕ → ℤ → Bool
  | 0, _ => false
  | depth + 1, current =>
    if 1 < current then current = pid || isAncestorFrom depth (parentOf w current) else false

/-- `is_ancestor_of_self` -/
def isAncestorOfSelf : Bool := isAncestorFrom w pid 64 t.self

/-- `may_signal` -/
def maySignal : Bool :=
  if pid ≤ 1 || isAncestorOfSelf w pid t then false
  else
    match w.processes pid with
    | none => false
    | some p => p.uid = t.uid && startTime w pid ≠ 0

/-- `cgroup_of` -/
def cgroupOf : Option Text :=
  (w.processes pid).bind fun p =>
    ((p.cgroup.splitOn 10).find? (ofString "0::").isPrefixOf).map fun line => strip (line.drop 3)

/-- `app_scope_of` -/
def appScopeOf : Option Text :=
  (cgroupOf w pid).filter fun path => path ≠ [] ∧ path ≠ [47] ∧
    (ofString "app-").isPrefixOf (Path.basename path) ∧
      (ofString ".scope").isSuffixOf (Path.basename path) ∧ some path ≠ cgroupOf w t.self

/-- `scope_members` -/
def scopeMembers (scope : Text) : List ℤ :=
  match w.procs scope with
  | none => []
  | some contents => ((contents.splitOn 10).map fun line => atoi (strip line)).filter (0 < ·)

/-! ### What the code does at one time -/

inductive Signal where
  | term | kill
  deriving DecidableEq

/-- A process as the one it is: its number and when it started. -/
structure Instance where
  pid : ℤ
  started : ℕ
  deriving DecidableEq

/-- A process that was taken, and what was there when it was. -/
structure Taken where
  pid : ℤ
  started : ℕ
  world : World

def Taken.instance (a : Taken) : Instance := ⟨a.pid, a.started⟩

/-- A call of `kill`, with what was there and how often `terminate` had waited. -/
structure Sent where
  signal : Signal
  pid : ℤ
  world : World
  polls : ℕ

/-- The process that it reached. -/
def Sent.instance (e : Sent) : Instance := ⟨e.pid, startTime e.world e.pid⟩

/-- Where `terminate` is. What the last look saw, and what had been taken by then, goes with the
result. -/
inductive Phase where
  | idle
  | waiting (waited : ℕ)
  | returned (result : ℤ) (last : World) (taken : List Taken)

structure State where
  /-- the hash table, whose order plays no part -/
  targets : List (ℤ × ℕ) := []
  phase : Phase := .idle
  polls : ℕ := 0
  log : List Sent := []
  taken : List Taken := []
  /-- what was there so far, the last first -/
  past : List World := []

variable (s : State)

/-- `targets.insert(pid, start_time(pid))` -/
def State.insert : State :=
  { s with
    targets := s.targets.filter (·.1 ≠ pid) ++ [(pid, startTime w pid)]
    taken := s.taken ++ [⟨pid, startTime w pid, w⟩] }

def State.contains : Bool := (s.targets.lookup pid).isSome

/-- One turn of the loop over the members of a scope. -/
def addMember (s : State) (member : ℤ) : State :=
  if !s.contains member && maySignal w member t then s.insert w member else s

/-- `add` -/
def add (includeScope : Bool) : Bool × State :=
  if !maySignal w pid t then (false, s)
  else if !includeScope then (true, s.insert w pid)
  else
    match appScopeOf w pid t with
    | none => (true, s.insert w pid)
    | some scope => (true, (scopeMembers w scope).foldl (addMember w t) (s.insert w pid))

/-- `same_process` -/
def sameProcess : Bool :=
  match s.targets.lookup pid with
  | none => false
  | some recorded => recorded ≠ 0 && startTime w pid = recorded

/-- One turn of the loop of `signal_all`, with the number of signals that were sent. -/
def signalOne (signal : Signal) (acc : ℤ × State) (pid : ℤ) : ℤ × State :=
  if !sameProcess w pid acc.2 || isZombie w pid then
    (acc.1, { acc.2 with targets := acc.2.targets.filter (·.1 ≠ pid) })
  else
    (if w.permits pid then acc.1 + 1 else acc.1,
      { acc.2 with log := acc.2.log ++ [⟨signal, pid, w, acc.2.polls⟩] })

/-- `signal_all` -/
def signalAll (signal : Signal) : ℤ × State :=
  (s.targets.map Prod.fst).foldl (signalOne w signal) (0, s)

/-- `any_alive` -/
def anyAlive : Bool :=
  (s.targets.map Prod.fst).any fun pid => sameProcess w pid s && !isZombie w pid

/-- What `terminate` does between two waits. -/
def look (waited : ℕ) : State :=
  if waited < t.graceMs && anyAlive w s then { s with phase := .waiting waited }
  else if !anyAlive w s then { s with phase := .returned 0 w s.taken }
  else { (signalAll w s .kill).2 with phase := .returned (signalAll w s .kill).1 w s.taken }

/-! ### Runs -/

inductive Call where
  | add (pid : ℤ) (includeScope : Bool)
  | terminate
  /-- the end of a wait of `POLL_MS` -/
  | poll

def State.call : Call → State
  | .add pid includeScope => (add w pid t s includeScope).2
  | .terminate =>
    match s.phase with
    | .idle =>
      if s.targets = [] then { s with phase := .returned 0 w s.taken }
      else look w t (signalAll w s .term).2 0
    | _ => s
  | .poll =>
    match s.phase with
    | .waiting waited => look w t { s with polls := s.polls + 1 } ((waited + 100) % 2 ^ 32)
    | _ => s

def step (s : State) (e : Call × World) : State :=
  { s.call e.2 t e.1 with past := e.2 :: (s.call e.2 t e.1).past }

/-! ### What is expected -/

def World.Present (w : World) (i : Instance) : Prop :=
  ∃ p, w.processes i.pid = some p ∧ p.started = i.started

/-- Neither ended nor a zombie. -/
def World.Alive (w : World) (i : Instance) : Prop :=
  ∃ p, w.processes i.pid = some p ∧ p.started = i.started ∧ p.state ≠ .zombie

/-- The parent, as it really is. -/
def World.parent (w : World) (pid : ℤ) : ℤ := ((w.processes pid).map fun p => (p.parent : ℤ)).getD 0

/-- The ancestor of the shell that is some levels above it. -/
def ancestor (w : World) (t : Terminator) (level : ℕ) : ℤ := w.parent^[level] t.self

/-- A process of the user that is not the first one, the shell or one of its ancestors. -/
structure Permitted (w : World) (t : Terminator) (i : Instance) : Prop where
  pid : 1 < i.pid
  present : w.Present i
  started : i.started ≠ 0
  ancestor : ∀ level ≤ 64, ancestor w t level ≠ i.pid
  owner : ∀ p, w.processes i.pid = some p → p.uid = t.uid

/-- **What is expected of a run.** -/
structure Sound (t : Terminator) (s : State) : Prop where
  /-- a signal reaches a process that was taken and that might be signalled when it was -/
  given : ∀ e ∈ s.log, ∃ a ∈ s.taken, a.instance = e.instance ∧
    maySignal a.world a.pid t = true ∧ Permitted a.world t a.instance ∧ e.world.Alive e.instance
  once : ∀ signal i, s.log.countP (fun e => e.signal = signal ∧ e.instance = i) ≤ 1
  /-- a process is killed after it was asked, and after the grace time -/
  order : ∀ before e after, s.log = before ++ e :: after → e.signal = .kill →
    (∃ e' ∈ before, e'.signal = .term ∧ e'.instance = e.instance) ∧ t.graceMs ≤ 100 * e.polls
  /-- `terminate` waits at most as often as `POLL_MS` fits into the grace time, rounded up -/
  ends : s.polls ≤ (t.graceMs + 99) / 100 ∧
    ∀ waited, s.phase = .waiting waited → s.polls < (t.graceMs + 99) / 100
  zero : ∀ last taken, s.phase = .returned 0 last taken → ∀ a ∈ taken, ¬last.Alive a.instance

/-- One call of `terminate` is followed, and a process that has ended or is a zombie does not come
back. -/
structure Evolves (s : State) (e : Call × World) : Prop where
  single : e.1 = .terminate → s.phase = .idle
  ended : ∀ i, (∃ u ∈ s.past, u.Present i) → e.2.Alive i → ∀ u ∈ s.past.head?, u.Alive i

/-- The processes that a call of `add` asks for. -/
def asked : Call → List ℤ
  | .add pid includeScope =>
    pid :: if includeScope then ((appScopeOf w pid t).map (scopeMembers w)).getD [] else []
  | _ => []

/-- The side condition of the steps. -/
structure Proper (t : Terminator) (s : State) (e : Call × World) : Prop where
  grace : t.graceMs ≤ 4294967200
  /-- nothing is taken while `terminate` waits -/
  apart : ∀ pid includeScope waited, e.1 = .add pid includeScope → s.phase ≠ .waiting waited
  /-- what is taken is not the 64th ancestor, which the loop does not look at -/
  level : ∀ pid ∈ asked e.2 t e.1, maySignal e.2 pid t = true → ancestor e.2 t 64 ≠ pid
  /-- the kernel lets the shell signal what it has taken -/
  permitted : ∀ a ∈ s.taken, e.2.Alive a.instance → e.2.permits a.pid = true

/-! ### What is read of a process -/

theorem lastIndex_append {c : UInt8} (before after : Text) (h : c ∉ after) :
    lastIndex c (before ++ c :: after) = before.length := by
  have hrev : (before ++ c :: after).reverse.idxOf c = after.length := by
    rw [List.reverse_append, List.reverse_cons, List.append_assoc,
      List.idxOf_append_of_notMem fun hc => h (List.mem_reverse.mp hc), List.singleton_append,
      List.idxOf_cons_self, List.length_reverse, Nat.add_zero]
  rw [lastIndex, if_pos (List.mem_append_right _ List.mem_cons_self), hrev, List.length_append,
    List.length_cons]
  omega

/-- No field has a blank or a parenthesis in it. -/
theorem notMem_field {p : Process} {field : Text} (h : field ∈ p.fields) :
    32 ∉ field ∧ 41 ∉ field := by
  have hdecimal (n : ℕ) : 32 ∉ decimal n ∧ 41 ∉ decimal n :=
    ⟨fun hb => absurd (isDigit_of_mem_decimal hb) (by decide),
      fun hb => absurd (isDigit_of_mem_decimal hb) (by decide)⟩
  have hsigned (n : ℤ) : 32 ∉ signed n ∧ 41 ∉ signed n :=
    ⟨fun hb => (isDigit_of_mem_signed hb).elim (by decide) (by decide),
      fun hb => (isDigit_of_mem_signed hb).elim (by decide) (by decide)⟩
  simp only [Process.fields, List.mem_cons, List.mem_append, List.mem_map] at h
  rcases h with rfl | rfl | ⟨n, -, rfl⟩ | rfl | ⟨n, -, rfl⟩
  · cases p.state <;> decide
  · exact hdecimal _
  · exact hsigned n
  · exact hdecimal _
  · exact hsigned n

/-- The last parenthesis is the one after the command. -/
theorem lastIndex_stat (pid : ℤ) (p : Process) :
    lastIndex 41 (p.stat pid) = (signed pid ++ [32, 40] ++ p.comm).length := by
  rw [Process.stat, List.append_assoc, List.append_assoc]
  refine lastIndex_append _ ([32] ++ ([32].intercalate p.fields ++ [10])) fun h => ?_
  simp only [List.mem_append, List.mem_cons, List.not_mem_nil, or_false] at h
  rcases h with h | h | h
  · exact absurd h (by decide)
  · rcases CString.mem_intercalate h with hblank | ⟨field, hfield, hmem⟩
    · exact absurd hblank (by decide)
    · exact (notMem_field hfield).2 hmem
  · exact absurd h (by decide)

theorem drop_stat (pid : ℤ) (p : Process) :
    (p.stat pid).drop (lastIndex 41 (p.stat pid) + 2).toNat =
      [32].intercalate p.fields ++ [10] := by
  have hlen : (((signed pid ++ [32, 40] ++ p.comm).length : ℤ) + 2).toNat =
      (signed pid ++ [32, 40] ++ p.comm ++ [41, 32]).length := by
    simp only [List.length_append, List.length_cons, List.length_nil]
    omega
  rw [lastIndex_stat, hlen, Process.stat, List.append_assoc _ _ [10], List.drop_left]

/-- The fields are split where they were joined. -/
theorem fieldsOf_stat (pid : ℤ) (p : Process) : ∃ more, more ≠ [] ∧ fieldsOf (p.stat pid) =
    [p.state.letter] :: decimal p.parent :: (p.middle.map signed ++ [decimal p.started]) ++
      more := by
  obtain ⟨init, last, hafter⟩ : ∃ init last, p.after = init ++ [last] :=
    ⟨p.after.dropLast, p.after.getLast p.after_ne, (List.dropLast_append_getLast p.after_ne).symm⟩
  have hsplit : p.fields = ([p.state.letter] :: decimal p.parent :: (p.middle.map signed ++
      [decimal p.started]) ++ init.map signed) ++ [signed last] := by
    simp [Process.fields, hafter]
  refine ⟨init.map signed ++ [signed last ++ [10]], by simp, ?_⟩
  rw [fieldsOf, drop_stat, hsplit, CString.intercalate_append_last, List.splitOn_intercalate,
    List.append_assoc]
  · intro field hfield
    rcases List.mem_append.mp hfield with hfield | hfield
    · exact (notMem_field (hsplit ▸ List.mem_append_left _ hfield)).1
    · rw [List.mem_singleton.mp hfield, List.mem_append, not_or]
      exact ⟨(notMem_field (hsplit ▸ List.mem_append_right _ List.mem_cons_self)).1, by decide⟩
  · simp

variable {w pid t}

theorem stat_eq {p : Process} (h : w.processes pid = some p) : w.stat pid = some (p.stat pid) := by
  rw [World.stat, h, Option.map_some]

theorem lastIndex_stat_nonneg (pid : ℤ) (p : Process) : ¬lastIndex 41 (p.stat pid) < 0 := by
  rw [lastIndex_stat]
  omega

/-- **The start time is read for every command name.** -/
theorem startTime_eq {p : Process} (h : w.processes pid = some p) :
    startTime w pid = p.started := by
  obtain ⟨more, hmore, hfields⟩ := fieldsOf_stat pid p
  have hlen : (fieldsOf (p.stat pid)).length = 20 + more.length := by
    simp [hfields, p.length_middle]
    omega
  have hget : (fieldsOf (p.stat pid)).getD 19 [] = decimal p.started := by
    rw [hfields]
    simp [p.length_middle]
  rw [startTime, stat_eq h]
  simp only [if_neg (lastIndex_stat_nonneg pid p)]
  rw [if_neg (by omega), hget, strtoull_decimal p.started_lt]

theorem parentOf_eq (w : World) (pid : ℤ) : parentOf w pid = w.parent pid := by
  rw [World.parent]
  cases h : w.processes pid with
  | none => rw [parentOf, World.stat, h]; rfl
  | some p =>
    obtain ⟨more, hmore, hfields⟩ := fieldsOf_stat pid p
    have hlen : 1 < (fieldsOf (p.stat pid)).length := by simp [hfields]
    have hget : (fieldsOf (p.stat pid)).getD 1 [] = decimal p.parent := by
      rw [hfields]
      simp
    rw [parentOf, stat_eq h]
    simp only [if_neg (lastIndex_stat_nonneg pid p)]
    rw [if_pos hlen, hget, atoi_decimal p.parent_lt]
    rfl

/-- **The test for zombies is right for every command name.** -/
theorem isZombie_iff {p : Process} (h : w.processes pid = some p) :
    isZombie w pid = true ↔ p.state = .zombie := by
  have hhead : ((p.stat pid).drop (lastIndex 41 (p.stat pid) + 2).toNat).head? =
      some p.state.letter := by
    rw [drop_stat, Process.fields, List.intercalate_cons_cons]
    rfl
  rw [isZombie, stat_eq h]
  simp only [lastIndex_stat_nonneg pid p, decide_false, Bool.false_or, hhead]
  cases p.state <;> decide

theorem startTime_of_none (h : w.processes pid = none) : startTime w pid = 0 := by
  rw [startTime, World.stat, h]
  rfl

/-! ### Which processes are taken -/

/-- Above the first process there is none. -/
theorem iterate_parent_le (w : World) {pid : ℤ} (h : pid ≤ 1) (level : ℕ) :
    w.parent^[level] pid ≤ 1 := by
  induction level generalizing pid with
  | zero => exact h
  | succ level ih =>
    rw [Function.iterate_succ_apply]
    refine ih ?_
    rw [World.parent]
    cases hp : w.processes pid with
    | none => exact zero_le_one
    | some p =>
      have hpos := w.pos pid p hp
      obtain rfl : pid = 1 := by omega
      simp [w.init p hp]

theorem isAncestorFrom_iff (hpid : 1 < pid) (depth : ℕ) (current : ℤ) :
    isAncestorFrom w pid depth current = true ↔
      ∃ level < depth, w.parent^[level] current = pid := by
  induction depth generalizing current with
  | zero => simp [isAncestorFrom]
  | succ depth ih =>
    rw [isAncestorFrom]
    by_cases hcurrent : 1 < current
    · rw [if_pos hcurrent, Bool.or_eq_true, decide_eq_true_eq, ih, parentOf_eq]
      constructor
      · rintro (heq | ⟨level, hlevel, heq⟩)
        · exact ⟨0, Nat.succ_pos _, heq⟩
        · exact ⟨level + 1, Nat.succ_lt_succ hlevel, heq⟩
      · rintro ⟨level, hlevel, heq⟩
        cases level with
        | zero => exact .inl heq
        | succ level => exact .inr ⟨level, Nat.lt_of_succ_lt_succ hlevel, heq⟩
    · rw [if_neg hcurrent]
      refine iff_of_false Bool.false_ne_true ?_
      rintro ⟨level, -, heq⟩
      have := iterate_parent_le w (not_lt.mp hcurrent) level
      omega

/-- What `may_signal` says of a process. -/
theorem maySignal_iff : maySignal w pid t = true ↔ 1 < pid ∧
    (∀ level < 64, ancestor w t level ≠ pid) ∧
      ∃ p, w.processes pid = some p ∧ p.uid = t.uid ∧ p.started ≠ 0 := by
  by_cases hpid : 1 < pid
  · have hancestor : isAncestorOfSelf w pid t = false ↔ ∀ level < 64, ancestor w t level ≠ pid := by
      rw [← Bool.not_eq_true, isAncestorOfSelf, isAncestorFrom_iff hpid]
      simp [ancestor]
    rw [maySignal, ← hancestor]
    cases isAncestorOfSelf w pid t with
    | true => simp
    | false =>
      rw [if_neg (by simpa using hpid)]
      cases hp : w.processes pid with
      | none => simp
      | some p => simp [startTime_eq hp, hpid]
  · rw [maySignal, if_pos (by simp [not_lt.mp hpid])]
    exact iff_of_false Bool.false_ne_true fun h => hpid h.1

theorem permitted_of_maySignal (h : maySignal w pid t = true) (hlevel : ancestor w t 64 ≠ pid) :
    Permitted w t ⟨pid, startTime w pid⟩ := by
  obtain ⟨hpid, hancestor, p, hp, huid, hstarted⟩ := maySignal_iff.mp h
  refine ⟨hpid, ⟨p, hp, (startTime_eq hp).symm⟩, ?_, fun level hle => ?_, fun q hq => ?_⟩
  · rwa [startTime_eq hp]
  · rcases hle.lt_or_eq with hlt | rfl
    · exact hancestor level hlt
    · exact hlevel
  · rwa [← Option.some.inj (hp.symm.trans hq)]

theorem startTime_of_alive {i : Instance} (h : w.Alive i) : startTime w i.pid = i.started := by
  obtain ⟨p, hp, hstarted, -⟩ := h
  rw [startTime_eq hp, hstarted]

/-! ### A pass over the targets -/

/-- The process is still the one that was taken, and no zombie. -/
def isLive (w : World) (x : ℤ × ℕ) : Bool :=
  x.2 ≠ 0 && startTime w x.1 = x.2 && !isZombie w x.1

theorem isLive_iff {x : ℤ × ℕ} (h : x.2 ≠ 0) : isLive w x = true ↔ w.Alive ⟨x.1, x.2⟩ := by
  rw [isLive, Bool.and_eq_true, Bool.and_eq_true, decide_eq_true_eq, decide_eq_true_eq]
  cases hp : w.processes x.1 with
  | none =>
    rw [startTime_of_none hp]
    refine iff_of_false (fun hlive => h hlive.1.2.symm) ?_
    rintro ⟨p, hp', -⟩
    rw [hp] at hp'
    cases hp'
  | some p =>
    have hzombie : (!isZombie w x.1) = true ↔ p.state ≠ .zombie := by
      rw [Bool.not_eq_true', ← Bool.not_eq_true, isZombie_iff hp]
    rw [startTime_eq hp, hzombie]
    refine ⟨fun hlive => ⟨p, hp, hlive.1.2, hlive.2⟩, ?_⟩
    rintro ⟨q, hq, hstarted, hstate⟩
    obtain rfl := Option.some.inj (hp.symm.trans hq)
    exact ⟨⟨h, hstarted⟩, hstate⟩

variable {s : State} {signal : Signal}

theorem lookup_middle {before after : List (ℤ × ℕ)} {x : ℤ × ℕ}
    (h : ((before ++ x :: after).map Prod.fst).Nodup) :
    (before ++ x :: after).lookup x.1 = some x.2 := by
  have hnone : before.lookup x.1 = none := by
    refine List.lookup_eq_none_iff.mpr fun y hy => bne_iff_ne.mpr fun heq => ?_
    rw [List.map_append, List.nodup_append] at h
    exact h.2.2 y.1 (List.mem_map_of_mem hy) x.1 (by simp) heq.symm
  rw [List.lookup_append, hnone, Option.none_or]
  exact List.lookup_cons_self

/-- Without a process, the others are left. -/
theorem filter_middle {before after : List (ℤ × ℕ)} {x : ℤ × ℕ}
    (h : ((before ++ x :: after).map Prod.fst).Nodup) :
    (before ++ x :: after).filter (·.1 ≠ x.1) = before ++ after := by
  rw [List.map_append, List.map_cons, List.nodup_append] at h
  obtain ⟨-, hafter, hdisj⟩ := h
  have hb : before.filter (·.1 ≠ x.1) = before := List.filter_eq_self.mpr fun y hy =>
    decide_eq_true (hdisj y.1 (List.mem_map_of_mem hy) x.1 List.mem_cons_self)
  have ha : after.filter (·.1 ≠ x.1) = after := List.filter_eq_self.mpr fun y hy =>
    decide_eq_true fun heq => (List.nodup_cons.mp hafter).1 (heq ▸ List.mem_map_of_mem hy)
  rw [List.filter_append, List.filter_cons_of_neg (by simp), hb, ha]

theorem sameProcess_middle {before after : List (ℤ × ℕ)} {x : ℤ × ℕ}
    (h : ((before ++ x :: after).map Prod.fst).Nodup) (hs : s.targets = before ++ x :: after) :
    (sameProcess w x.1 s && !isZombie w x.1) = isLive w x := by
  rw [sameProcess, hs, lookup_middle h]
  rfl

/-- One turn for a process that is not yet looked at, after those that are. -/
theorem foldl_signalOne (n : ℤ) (before after : List (ℤ × ℕ))
    (h : ((before ++ after).map Prod.fst).Nodup) (hs : s.targets = before ++ after) :
    (after.map Prod.fst).foldl (signalOne w signal) (n, s) =
      (n + (after.filter (isLive w)).countP (w.permits ·.1),
        { s with
          targets := before ++ after.filter (isLive w)
          log := s.log ++ (after.filter (isLive w)).map fun x => ⟨signal, x.1, w, s.polls⟩ }) := by
  induction after generalizing n s before with
  | nil =>
    simp only [List.map_nil, List.foldl_nil, List.filter_nil, List.countP_nil, List.append_nil,
      ← hs.trans (List.append_nil _)]
    simp
  | cons x after ih =>
    have hsame := sameProcess_middle (w := w) h hs
    rw [List.map_cons, List.foldl_cons, signalOne]
    have hwithout : ((before ++ after).map Prod.fst).Nodup := by
      rw [← filter_middle h]
      exact h.sublist (List.filter_sublist.map _)
    cases hlive : isLive w x with
    | false =>
      have hnot : (!sameProcess w x.1 s || isZombie w x.1) = true := by
        rw [← Bool.not_not (isZombie w x.1), ← Bool.not_and, hsame, hlive, Bool.not_false]
      rw [if_pos hnot, ih n _ hwithout (by rw [hs, filter_middle h]),
        List.filter_cons_of_neg (by simp [hlive])]
    | true =>
      have hnot : ¬(!sameProcess w x.1 s || isZombie w x.1) = true := by
        rw [← Bool.not_not (isZombie w x.1), ← Bool.not_and, hsame, hlive]
        exact Bool.false_ne_true
      have hcount : (if w.permits x.1 then n + 1 else n) +
          ((after.filter (isLive w)).countP (w.permits ·.1) : ℤ) =
            n + (((x :: after).filter (isLive w)).countP (w.permits ·.1) : ℤ) := by
        rw [List.filter_cons_of_pos hlive, List.countP_cons]
        split <;> push_cast <;> ring
      have hnext : ((before ++ [x] ++ after).map Prod.fst).Nodup := by
        rwa [List.append_assoc]
      rw [if_neg hnot, ih _ _ hnext (by rw [hs, List.append_assoc, List.singleton_append]), hcount,
        List.filter_cons_of_pos hlive]
      simp only [List.append_assoc, List.singleton_append, List.map_cons]

/-- **A pass over the targets** reaches those that are still the same, and keeps them. -/
theorem signalAll_spec (h : (s.targets.map Prod.fst).Nodup) : signalAll w s signal =
    (((s.targets.filter (isLive w)).countP (w.permits ·.1) : ℤ),
      { s with
        targets := s.targets.filter (isLive w)
        log := s.log ++ (s.targets.filter (isLive w)).map fun x =>
          ⟨signal, x.1, w, s.polls⟩ }) := by
  rw [signalAll, foldl_signalOne 0 [] s.targets h rfl, zero_add]
  rfl

theorem anyAlive_iff (h : (s.targets.map Prod.fst).Nodup) :
    anyAlive w s = true ↔ ∃ x ∈ s.targets, isLive w x = true := by
  rw [anyAlive, List.any_map, List.any_eq_true]
  refine exists_congr fun x => and_congr_right fun hx => ?_
  obtain ⟨before, after, hs⟩ := List.append_of_mem hx
  rw [Function.comp_apply, sameProcess_middle (hs ▸ h) hs]

/-! ### What holds after every step -/

/-- What is known of the targets, and of those that were taken. -/
structure Tracked (t : Terminator) (s : State) : Prop where
  nodup : (s.targets.map Prod.fst).Nodup
  known : ∀ x ∈ s.targets, ∃ a ∈ s.taken, a.instance = ⟨x.1, x.2⟩
  valid : ∀ a ∈ s.taken, maySignal a.world a.pid t = true ∧ Permitted a.world t a.instance
  given : ∀ e ∈ s.log, ∃ a ∈ s.taken, a.instance = e.instance ∧ e.world.Alive e.instance

/-- Whoever was taken and is alive is a target. -/
def Covered (w : World) (s : State) : Prop :=
  ∀ a ∈ s.taken, w.Alive a.instance → (a.pid, a.started) ∈ s.targets

/-- The signals were sent in two passes. -/
structure TwoPasses (t : Terminator) (asked killed : List Sent) : Prop where
  term : ∀ e ∈ asked, e.signal = .term
  kill : ∀ e ∈ killed, e.signal = .kill
  nodup_asked : (asked.map Sent.instance).Nodup
  nodup_killed : (killed.map Sent.instance).Nodup
  subset : ∀ e ∈ killed, e.instance ∈ asked.map Sent.instance
  grace : ∀ e ∈ killed, t.graceMs ≤ 100 * e.polls

/-- What is known while `terminate` waits, and right before it looks. -/
structure Waiting (s : State) : Prop where
  term : ∀ e ∈ s.log, e.signal = .term
  nodup : (s.log.map Sent.instance).Nodup
  asked : ∀ x ∈ s.targets, ⟨x.1, x.2⟩ ∈ s.log.map Sent.instance

/-- What is known in each phase. -/
def Stage (t : Terminator) (s : State) : Prop :=
  match s.phase with
  | .idle => s.log = [] ∧ s.polls = 0
  | .waiting waited => Waiting s ∧ waited = 100 * s.polls ∧ waited < t.graceMs
  | .returned result last taken =>
    (∃ asked killed, s.log = asked ++ killed ∧ TwoPasses t asked killed) ∧
      100 * s.polls < t.graceMs + 100 ∧ (result = 0 → ∀ a ∈ taken, ¬last.Alive a.instance)

structure Inv (t : Terminator) (s : State) : Prop where
  tracked : Tracked t s
  past : ∀ a ∈ s.taken, a.world ∈ s.past
  covered : ∀ u ∈ s.past.head?, Covered u s
  stage : Stage t s

theorem Waiting.twoPasses (h : Waiting s) : TwoPasses t s.log [] where
  term := h.term
  kill _ he := absurd he List.not_mem_nil
  nodup_asked := h.nodup
  nodup_killed := List.nodup_nil
  subset _ he := absurd he List.not_mem_nil
  grace _ he := absurd he List.not_mem_nil

/-- Who was taken and is alive has been so since. -/
theorem Inv.covered_now {e : Call × World} (h : Inv t s) (he : Evolves s e) : Covered e.2 s := by
  rintro a ha halive
  have hpast := h.past a ha
  cases hs : s.past with
  | nil => rw [hs] at hpast; cases hpast
  | cons u past =>
    have hhead : u ∈ s.past.head? := by rw [hs]; rfl
    exact h.covered u hhead a ha
      (he.ended a.instance ⟨a.world, hpast, (h.tracked.valid a ha).2.present⟩ halive u hhead)

/-! ### Taking processes -/

/-- What one more process changes. -/
theorem mem_insert_targets {x : ℤ × ℕ} : x ∈ (s.insert w pid).targets ↔
    (x ∈ s.targets ∧ x.1 ≠ pid) ∨ x = (pid, startTime w pid) := by
  rw [State.insert, List.mem_append, List.mem_filter, decide_eq_true_eq, List.mem_singleton]

theorem Tracked.insert (h : Tracked t s) (hmay : maySignal w pid t = true)
    (hlevel : ancestor w t 64 ≠ pid) : Tracked t (s.insert w pid) where
  nodup := by
    rw [State.insert, List.map_append, List.nodup_append]
    refine ⟨h.nodup.sublist (List.filter_sublist.map _), List.pairwise_singleton _ _, ?_⟩
    rintro p hp q hq rfl
    obtain ⟨x, hx, rfl⟩ := List.mem_map.mp hp
    have hne := of_decide_eq_true (List.mem_filter.mp hx).2
    exact hne (List.mem_singleton.mp hq)
  known x hx := by
    rcases mem_insert_targets.mp hx with ⟨hx, -⟩ | rfl
    · obtain ⟨a, ha, heq⟩ := h.known x hx
      exact ⟨a, List.mem_append_left _ ha, heq⟩
    · exact ⟨_, List.mem_append_right _ List.mem_cons_self, rfl⟩
  valid a ha := by
    rcases List.mem_append.mp ha with ha | ha
    · exact h.valid a ha
    · rw [List.mem_singleton.mp ha]
      exact ⟨hmay, permitted_of_maySignal hmay hlevel⟩
  given e he := by
    obtain ⟨a, ha, heq⟩ := h.given e he
    exact ⟨a, List.mem_append_left _ ha, heq⟩

theorem Covered.insert (h : Covered w s) : Covered w (s.insert w pid) := by
  rintro a ha halive
  rw [mem_insert_targets]
  rcases List.mem_append.mp ha with ha | ha
  · by_cases hpid : a.pid = pid
    · have hstarted : startTime w a.pid = a.started :=
        startTime_of_alive (i := a.instance) halive
      exact .inr (by rw [← hpid, hstarted])
    · exact .inl ⟨h a ha halive, hpid⟩
  · rw [List.mem_singleton.mp ha]
    exact .inr rfl

/-- What `add` keeps, and what it takes. -/
structure Added (w : World) (t : Terminator) (s s' : State) : Prop where
  tracked : Tracked t s'
  covered : Covered w s'
  past : s'.past = s.past
  phase : s'.phase = s.phase
  log : s'.log = s.log
  polls : s'.polls = s.polls
  taken : ∀ a ∈ s'.taken, a ∈ s.taken ∨ a.world = w

theorem Added.insert {s₀ : State} (h : Added w t s₀ s) (hmay : maySignal w pid t = true)
    (hlevel : ancestor w t 64 ≠ pid) : Added w t s₀ (s.insert w pid) where
  tracked := h.tracked.insert hmay hlevel
  covered := h.covered.insert
  past := h.past
  phase := h.phase
  log := h.log
  polls := h.polls
  taken a ha := by
    rcases List.mem_append.mp ha with ha | ha
    · exact h.taken a ha
    · rw [List.mem_singleton.mp ha]
      exact .inr rfl

theorem added_members {s₀ : State} {members : List ℤ}
    (hlevel : ∀ pid ∈ members, maySignal w pid t = true → ancestor w t 64 ≠ pid)
    (h : Added w t s₀ s) : Added w t s₀ (members.foldl (addMember w t) s) := by
  induction members generalizing s with
  | nil => exact h
  | cons member members ih =>
    refine ih (fun pid hpid => hlevel pid (List.mem_cons_of_mem _ hpid)) ?_
    rw [addMember]
    split_ifs with hnew
    · rw [Bool.and_eq_true] at hnew
      exact h.insert hnew.2 (hlevel member List.mem_cons_self hnew.2)
    · exact h

theorem added_add (h : Tracked t s) (hcovered : Covered w s) {includeScope : Bool}
    (hlevel : ∀ q ∈ asked w t (.add pid includeScope), maySignal w q t = true →
      ancestor w t 64 ≠ q) : Added w t s (add w pid t s includeScope).2 := by
  have hself : Added w t s s := ⟨h, hcovered, rfl, rfl, rfl, rfl, fun a ha => .inl ha⟩
  rw [add]
  split_ifs with hmay hscope
  · exact hself
  · rw [Bool.not_eq_true', Bool.not_eq_false] at hmay
    exact hself.insert hmay (hlevel pid List.mem_cons_self hmay)
  · rw [Bool.not_eq_true', Bool.not_eq_false] at hmay hscope
    have hfirst := hself.insert hmay (hlevel pid List.mem_cons_self hmay)
    cases hs : appScopeOf w pid t with
    | none => exact hfirst
    | some scope =>
      refine added_members (fun q hq => hlevel q ?_) hfirst
      rw [asked, if_pos hscope, hs]
      exact List.mem_cons_of_mem _ hq

/-! ### The two passes -/

/-- What a pass sends. -/
def sendings (w : World) (signal : Signal) (s : State) : List Sent :=
  (s.targets.filter (isLive w)).map fun x => ⟨signal, x.1, w, s.polls⟩

theorem alive_of_isLive {x : ℤ × ℕ} (h : isLive w x = true) :
    w.Alive ⟨x.1, x.2⟩ ∧ startTime w x.1 = x.2 := by
  have hparts := h
  rw [isLive, Bool.and_eq_true, Bool.and_eq_true, decide_eq_true_eq, decide_eq_true_eq] at hparts
  exact ⟨(isLive_iff hparts.1.1).mp h, hparts.1.2⟩

theorem mem_sendings {e : Sent} : e ∈ sendings w signal s ↔ ∃ x ∈ s.targets, isLive w x = true ∧
    e = ⟨signal, x.1, w, s.polls⟩ := by
  simp only [sendings, List.mem_map, List.mem_filter]
  constructor
  · rintro ⟨x, ⟨hx, hlive⟩, rfl⟩
    exact ⟨x, hx, hlive, rfl⟩
  · rintro ⟨x, hx, hlive, rfl⟩
    exact ⟨x, ⟨hx, hlive⟩, rfl⟩

theorem instance_sendings : (sendings w signal s).map Sent.instance =
    (s.targets.filter (isLive w)).map fun x => ⟨x.1, x.2⟩ := by
  rw [sendings, List.map_map]
  refine List.map_congr_left fun x hx => ?_
  rw [Function.comp_apply, Sent.instance, (alive_of_isLive (List.mem_filter.mp hx).2).2]

theorem nodup_sendings (h : (s.targets.map Prod.fst).Nodup) :
    ((sendings w signal s).map Sent.instance).Nodup := by
  refine List.Nodup.of_map Instance.pid ?_
  rw [instance_sendings, List.map_map]
  exact h.sublist (List.filter_sublist.map _)

theorem signalAll_eq (w : World) (signal : Signal) (h : (s.targets.map Prod.fst).Nodup) :
    (signalAll w s signal).2 = { s with
      targets := s.targets.filter (isLive w)
      log := s.log ++ sendings w signal s } :=
  congrArg Prod.snd (signalAll_spec h)

theorem Tracked.signalAll (h : Tracked t s) : Tracked t (signalAll w s signal).2 := by
  rw [signalAll_eq _ _ h.nodup]
  refine ⟨h.nodup.sublist (List.filter_sublist.map _), fun x hx => ?_, h.valid, fun e he => ?_⟩
  · exact h.known x (List.mem_of_mem_filter hx)
  · rcases List.mem_append.mp he with he | he
    · exact h.given e he
    · obtain ⟨x, hx, hlive, rfl⟩ := mem_sendings.mp he
      obtain ⟨a, ha, heq⟩ := h.known x hx
      obtain ⟨halive, hstarted⟩ := alive_of_isLive hlive
      rw [Sent.instance, hstarted]
      exact ⟨a, ha, heq, halive⟩

/-- Only those that are not alive are dropped. -/
theorem Covered.signalAll (h : Covered w s) (htracked : Tracked t s) :
    Covered w (signalAll w s signal).2 := by
  rw [signalAll_eq _ _ htracked.nodup]
  rintro a ha halive
  have hstarted : a.started ≠ 0 := (htracked.valid a ha).2.started
  exact List.mem_filter.mpr ⟨h a ha halive, (isLive_iff hstarted).mpr halive⟩

/-- What holds of the state after a look. -/
structure Looked (w : World) (t : Terminator) (s s' : State) : Prop where
  tracked : Tracked t s'
  covered : Covered w s'
  past : s'.past = s.past
  taken : s'.taken = s.taken
  stage : Stage t s'

/-- A target that is alive was taken. -/
theorem Tracked.alive (h : Tracked t s) (halive : anyAlive w s = true) :
    ∃ a ∈ s.taken, w.Alive a.instance ∧ (a.pid, a.started) ∈ s.targets := by
  obtain ⟨x, hx, hlive⟩ := (anyAlive_iff h.nodup).mp halive
  obtain ⟨a, ha, heq⟩ := h.known x hx
  have hx' : (a.pid, a.started) = x :=
    Prod.ext (congrArg Instance.pid heq) (congrArg Instance.started heq)
  exact ⟨a, ha, heq ▸ (alive_of_isLive hlive).1, hx' ▸ hx⟩

theorem Covered.not_alive (h : Covered w s) (htracked : Tracked t s)
    (hnone : ¬anyAlive w s = true) : ∀ a ∈ s.taken, ¬w.Alive a.instance := fun a ha halive =>
  hnone ((anyAlive_iff htracked.nodup).mpr
    ⟨_, h a ha halive, (isLive_iff (htracked.valid a ha).2.started).mpr halive⟩)

/-- **A look** goes on waiting, finds that nothing is left, or kills what is. -/
theorem looked_look (h : Tracked t s) (hc : Covered w s) (hw : Waiting s)
    (hpolls : 100 * s.polls < t.graceMs + 100)
    (hpermits : ∀ a ∈ s.taken, w.Alive a.instance → w.permits a.pid = true) :
    Looked w t s (look w t s (100 * s.polls)) := by
  rw [look]
  split_ifs with hwait hnone
  · rw [Bool.and_eq_true, decide_eq_true_eq] at hwait
    exact ⟨⟨h.nodup, h.known, h.valid, h.given⟩, hc, rfl, rfl, ⟨hw.term, hw.nodup, hw.asked⟩, rfl,
      hwait.1⟩
  · rw [Bool.not_eq_true', ← Bool.not_eq_true] at hnone
    exact ⟨⟨h.nodup, h.known, h.valid, h.given⟩, hc, rfl, rfl,
      ⟨s.log, [], (List.append_nil _).symm, hw.twoPasses⟩, hpolls, fun _ => hc.not_alive h hnone⟩
  · rw [Bool.not_eq_true', Bool.not_eq_false] at hnone
    have hgrace : t.graceMs ≤ 100 * s.polls := by
      by_contra hlt
      exact hwait (by rw [hnone, Bool.and_true, decide_eq_true_eq]; omega)
    have htracked : Tracked t (signalAll w s .kill).2 := h.signalAll
    have hcovered : Covered w (signalAll w s .kill).2 := hc.signalAll h
    have hlog : (signalAll w s .kill).2.log = s.log ++ sendings w .kill s := by
      rw [signalAll_eq _ _ h.nodup]
    have hsame : (signalAll w s .kill).2.past = s.past ∧ (signalAll w s .kill).2.taken = s.taken ∧
        (signalAll w s .kill).2.polls = s.polls := by
      rw [signalAll_eq _ _ h.nodup]
      exact ⟨rfl, rfl, rfl⟩
    refine ⟨⟨htracked.nodup, htracked.known, htracked.valid, htracked.given⟩, hcovered, hsame.1,
      hsame.2.1, ⟨s.log, _, hlog, hw.term, ?_, hw.nodup, nodup_sendings h.nodup, ?_, ?_⟩, ?_, ?_⟩
    · rintro e he
      obtain ⟨x, -, -, rfl⟩ := mem_sendings.mp he
      rfl
    · rintro e he
      obtain ⟨x, hx, hlive, rfl⟩ := mem_sendings.mp he
      rw [Sent.instance, (alive_of_isLive hlive).2]
      exact hw.asked x hx
    · rintro e he
      obtain ⟨x, -, -, rfl⟩ := mem_sendings.mp he
      exact hgrace
    · rw [hsame.2.2]
      exact hpolls
    · rintro hzero
      -- one of the signals reaches a process, so that the result is not zero
      obtain ⟨a, ha, halive, htarget⟩ := h.alive hnone
      have hlive : isLive w (a.pid, a.started) = true :=
        (isLive_iff (h.valid a ha).2.started).mpr halive
      have hcount : 0 < (s.targets.filter (isLive w)).countP (w.permits ·.1) :=
        List.countP_pos_iff.mpr ⟨_, List.mem_filter.mpr ⟨htarget, hlive⟩, hpermits a ha halive⟩
      rw [signalAll_spec h.nodup] at hzero
      exact absurd hzero (ne_of_gt (Int.natCast_pos.mpr hcount))

/-! ### Runs -/

theorem Stage.record (h : Stage t s) (past : List World) : Stage t { s with past := past } := by
  rw [Stage] at h ⊢
  cases hphase : s.phase with
  | idle => rw [hphase] at h; exact h
  | waiting waited =>
    rw [hphase] at h
    exact ⟨⟨h.1.term, h.1.nodup, h.1.asked⟩, h.2⟩
  | returned result last taken => rw [hphase] at h; exact h

theorem call_terminate (h : s.phase = .idle) : s.call w t .terminate =
    if s.targets = [] then { s with phase := .returned 0 w s.taken }
    else look w t (signalAll w s .term).2 0 := by
  rw [State.call]
  split
  · rfl
  · next hnot => exact absurd h hnot

theorem call_poll {waited : ℕ} (h : s.phase = .waiting waited) : s.call w t .poll =
    look w t { s with polls := s.polls + 1 } ((waited + 100) % 2 ^ 32) := by
  rw [State.call]
  split
  · next waited' h' => rw [Phase.waiting.inj (h.symm.trans h')]
  · next hnot => exact absurd h (hnot waited)

/-- **The step lemma.** -/
theorem Inv.step {e : Call × World} (h : Inv t s) (he : Evolves s e) (hok : Proper t s e) :
    Inv t (step t s e) := by
  obtain ⟨c, w⟩ := e
  have hnow : Covered w s := h.covered_now he
  -- what every call has to leave behind, before what was there is put on record
  suffices hcall : Tracked t (s.call w t c) ∧ Covered w (s.call w t c) ∧
      (s.call w t c).past = s.past ∧ (∀ a ∈ (s.call w t c).taken, a ∈ s.taken ∨ a.world = w) ∧
        Stage t (s.call w t c) by
    obtain ⟨htracked, hcovered, hpast, htaken, hstage⟩ := hcall
    refine ⟨⟨htracked.nodup, htracked.known, htracked.valid, htracked.given⟩, fun a ha => ?_,
      fun u hu => ?_, hstage.record _⟩
    · rcases htaken a ha with ha | rfl
      · exact List.mem_cons_of_mem _ (hpast ▸ h.past a ha)
      · exact List.mem_cons_self
    · obtain rfl : w = u := Option.some.inj hu
      exact hcovered
  have hsame : Tracked t s ∧ Covered w s ∧ s.past = s.past ∧
      (∀ a ∈ s.taken, a ∈ s.taken ∨ a.world = w) ∧ Stage t s :=
    ⟨h.tracked, hnow, rfl, fun a ha => .inl ha, h.stage⟩
  have hpermits : ∀ a ∈ s.taken, w.Alive a.instance → w.permits a.pid = true := hok.permitted
  cases c with
  | add pid includeScope =>
    have hadded : Added w t s (s.call w t (.add pid includeScope)) :=
      added_add h.tracked hnow hok.level
    refine ⟨hadded.tracked, hadded.covered, hadded.past, hadded.taken, ?_⟩
    have hstage := h.stage
    rw [Stage] at hstage ⊢
    rw [hadded.phase, hadded.log, hadded.polls]
    cases hphase : s.phase with
    | idle => rw [hphase] at hstage; exact hstage
    | waiting waited => exact absurd hphase (hok.apart pid includeScope waited rfl)
    | returned result last taken => rw [hphase] at hstage; exact hstage
  | terminate =>
    have hidle : s.phase = .idle := he.single rfl
    have hstage := h.stage
    rw [Stage, hidle] at hstage
    obtain ⟨hlog, hpolls⟩ := hstage
    rw [call_terminate hidle]
    split_ifs with hempty
    · refine ⟨⟨h.tracked.nodup, h.tracked.known, h.tracked.valid, h.tracked.given⟩, hnow, rfl,
        fun a ha => .inl ha, ⟨[], [], hlog, ?_⟩, ?_, fun _ a ha halive => ?_⟩
      · exact Waiting.twoPasses (s := {}) ⟨by simp, by simp, by simp⟩
      · rw [hpolls]
        omega
      · exact absurd (hempty ▸ hnow a ha halive) List.not_mem_nil
    · have heq := signalAll_eq w .term h.tracked.nodup
      have hwaiting : Waiting (signalAll w s .term).2 := by
        rw [heq, hlog]
        refine ⟨fun e he => ?_, nodup_sendings h.tracked.nodup, fun x hx => ?_⟩
        · obtain ⟨x, -, -, rfl⟩ := mem_sendings.mp he
          rfl
        · rw [List.nil_append, instance_sendings]
          exact List.mem_map_of_mem hx
      have hpolls' : (signalAll w s .term).2.polls = 0 := by rw [heq, hpolls]
      have htaken : (signalAll w s .term).2.taken = s.taken := by rw [heq]
      have hpast : (signalAll w s .term).2.past = s.past := by rw [heq]
      have hlook := looked_look h.tracked.signalAll (hnow.signalAll h.tracked) hwaiting
        (by rw [hpolls']; omega) (htaken ▸ hpermits)
      rw [hpolls'] at hlook
      exact ⟨hlook.tracked, hlook.covered, hlook.past.trans hpast,
        fun a ha => .inl (htaken ▸ hlook.taken ▸ ha), hlook.stage⟩
  | poll =>
    cases hphase : s.phase with
    | idle => rwa [State.call, hphase]
    | returned result last taken => rwa [State.call, hphase]
    | waiting waited =>
      have hstage := h.stage
      rw [Stage, hphase] at hstage
      obtain ⟨hwaiting, hwaited, hlt⟩ := hstage
      have hgrace := hok.grace
      -- the sum does not wrap around, as it is not above the grace time
      have hsum : (waited + 100) % 2 ^ 32 = 100 * (s.polls + 1) := by
        rw [Nat.mod_eq_of_lt (by omega)]
        omega
      have hlook := looked_look (s := { s with polls := s.polls + 1 })
        ⟨h.tracked.nodup, h.tracked.known, h.tracked.valid, h.tracked.given⟩ hnow
        ⟨hwaiting.term, hwaiting.nodup, hwaiting.asked⟩ (by dsimp only; omega) hpermits
      rw [call_poll hphase, hsum]
      exact ⟨hlook.tracked, hlook.covered, hlook.past, fun a ha => .inl (hlook.taken ▸ ha),
        hlook.stage⟩

theorem inv_init (t : Terminator) : Inv t {} where
  tracked := ⟨List.nodup_nil, fun _ h => absurd h List.not_mem_nil,
    fun _ h => absurd h List.not_mem_nil, fun _ h => absurd h List.not_mem_nil⟩
  past _ h := absurd h List.not_mem_nil
  covered _ h := absurd h (by simp)
  stage := ⟨rfl, rfl⟩

theorem countP_le_one {l : List Sent} (hl : (l.map Sent.instance).Nodup) (p : Sent → Bool)
    {i : Instance} (hp : ∀ e, p e = true → e.instance = i) : l.countP p ≤ 1 := by
  have hle : l.countP p ≤ (l.map Sent.instance).count i := by
    rw [List.count, List.countP_map]
    exact List.countP_mono_left fun e _ he => beq_iff_eq.mpr (hp e he)
  exact hle.trans (List.nodup_iff_count_le_one.mp hl i)

namespace TwoPasses

variable {asked killed : List Sent}

theorem once (h : TwoPasses t asked killed) (signal : Signal) (i : Instance) :
    (asked ++ killed).countP (fun e => e.signal = signal ∧ e.instance = i) ≤ 1 := by
  have hinstance (e : Sent) (he : decide (e.signal = signal ∧ e.instance = i) = true) :
      e.instance = i := (of_decide_eq_true he).2
  rw [List.countP_append]
  cases signal with
  | term =>
    have hkilled : killed.countP (fun e => e.signal = .term ∧ e.instance = i) = 0 :=
      List.countP_eq_zero.mpr fun e he heq => by
        have := (of_decide_eq_true heq).1
        rw [h.kill e he] at this
        cases this
    rw [hkilled, Nat.add_zero]
    exact countP_le_one h.nodup_asked _ hinstance
  | kill =>
    have hasked : asked.countP (fun e => e.signal = .kill ∧ e.instance = i) = 0 :=
      List.countP_eq_zero.mpr fun e he heq => by
        have := (of_decide_eq_true heq).1
        rw [h.term e he] at this
        cases this
    rw [hasked, Nat.zero_add]
    exact countP_le_one h.nodup_killed _ hinstance

theorem order (h : TwoPasses t asked killed) {before after : List Sent} {e : Sent}
    (hlog : asked ++ killed = before ++ e :: after) (he : e.signal = .kill) :
    (∃ e' ∈ before, e'.signal = .term ∧ e'.instance = e.instance) ∧ t.graceMs ≤ 100 * e.polls := by
  -- the signal is one of the second pass, so the whole first pass stands before it
  obtain ⟨between, hbefore, hkilled⟩ : ∃ between, before = asked ++ between ∧
      killed = between ++ e :: after := by
    rcases List.append_eq_append_iff.mp hlog with h' | ⟨rest, hasked, htail⟩
    · exact h'
    · cases rest with
      | nil => exact ⟨[], by rw [hasked]; simp, by simpa using htail.symm⟩
      | cons e' rest =>
        obtain ⟨rfl, -⟩ := List.cons.inj htail
        have := h.term e (hasked ▸ List.mem_append_right _ List.mem_cons_self)
        rw [he] at this
        cases this
  have hmem : e ∈ killed := hkilled ▸ List.mem_append_right _ List.mem_cons_self
  obtain ⟨e', he', hinstance⟩ := List.mem_map.mp (h.subset e hmem)
  exact ⟨⟨e', hbefore ▸ List.mem_append_left _ he', h.term e' he', hinstance⟩, h.grace e hmem⟩

end TwoPasses

/-- What is known in each phase, without the phases. -/
theorem Stage.passes (h : Stage t s) :
    ∃ asked killed, s.log = asked ++ killed ∧ TwoPasses t asked killed := by
  rw [Stage] at h
  cases hphase : s.phase with
  | idle =>
    rw [hphase] at h
    exact ⟨[], [], h.1, Waiting.twoPasses (s := {}) ⟨by simp, by simp, by simp⟩⟩
  | waiting waited =>
    rw [hphase] at h
    exact ⟨s.log, [], (List.append_nil _).symm, h.1.twoPasses⟩
  | returned result last taken => rw [hphase] at h; exact h.1

theorem Inv.sound (h : Inv t s) : Sound t s := by
  obtain ⟨asked, killed, hlog, hpasses⟩ := h.stage.passes
  have hstage := h.stage
  rw [Stage] at hstage
  refine ⟨fun e he => ?_, fun signal i => ?_, fun before e after heq => ?_, ⟨?_, ?_⟩, ?_⟩
  · obtain ⟨a, ha, heq, halive⟩ := h.tracked.given e he
    obtain ⟨hmay, hpermitted⟩ := h.tracked.valid a ha
    exact ⟨a, ha, heq, hmay, hpermitted, halive⟩
  · rw [hlog]
    exact hpasses.once signal i
  · exact hpasses.order (hlog.symm.trans heq)
  · cases hphase : s.phase <;> rw [hphase] at hstage <;> dsimp only at hstage <;> omega
  · rintro waited hphase
    rw [hphase] at hstage
    dsimp only at hstage
    omega
  · rintro last taken hphase
    rw [hphase] at hstage
    exact hstage.2.2 rfl

/-- **Only what was given is signalled.** In every run in which nothing is taken while `terminate`
waits, the 64th ancestor is not taken, the kernel lets the shell signal what it has taken and the
grace time is not above 4294967200 ms, the signals and the result are as expected. The start time
and the state are read as they are, whatever the name of the command is. -/
theorem sound_of_guarded (t : Terminator) (es : List (Call × World))
    (hevolves : Transition.Guarded (step t) Evolves {} es)
    (hproper : Transition.Guarded (step t) (Proper t) {} es) :
    Sound t (Transition.run (step t) {} es) ∧
      ∀ (w : World) (pid : ℤ) (p : Process), w.processes pid = some p →
        startTime w pid = p.started ∧ (isZombie w pid = true ↔ p.state = .zombie) :=
  ⟨((hevolves.and hproper).invariant (fun _ _ h hok => h.step hok.1 hok.2) (inv_init t)).sound,
    fun _ _ _ h => ⟨startTime_eq h, isZombie_iff h⟩⟩

/-! ### A grace time that is never over -/

/-- The time waited is a multiple of 4 even after it has wrapped around, and never reaches the
largest number. -/
theorem waits_forever (hgrace : t.graceMs = 2 ^ 32 - 1) {waited : ℕ}
    (hphase : s.phase = .waiting waited) (hfour : 4 ∣ waited) (halive : anyAlive w s = true)
    (n : ℕ) : ∃ waited', (Transition.run (step t) s (List.replicate n (.poll, w))).phase =
        .waiting waited' ∧
      (Transition.run (step t) s (List.replicate n (.poll, w))).polls = s.polls + n := by
  induction n generalizing s waited with
  | zero => exact ⟨waited, hphase, rfl⟩
  | succ n ih =>
    have hcall : s.call w t .poll =
        { s with polls := s.polls + 1, phase := .waiting ((waited + 100) % 2 ^ 32) } := by
      have hlt : (waited + 100) % 2 ^ 32 < t.graceMs := by omega
      have halive' : anyAlive w { s with polls := s.polls + 1 } = true := halive
      rw [call_poll hphase, look, if_pos (by rw [halive', Bool.and_true]; exact decide_eq_true hlt)]
    have hstep : step t s (.poll, w) = { s with
        polls := s.polls + 1
        phase := .waiting ((waited + 100) % 2 ^ 32)
        past := w :: s.past } := by
      rw [step, hcall]
    obtain ⟨waited', hwaiting, hpolls⟩ := ih (s := step t s (.poll, w))
      (by rw [hstep]) (by omega) (by rw [hstep]; exact halive)
    rw [List.replicate_succ, Transition.run_cons]
    refine ⟨waited', hwaiting, hpolls.trans ?_⟩
    rw [hstep]
    dsimp only
    omega

/-- Nothing changes while `terminate` waits. -/
theorem evolves_polls (t : Terminator) (h : ∀ u ∈ s.past.head?, u = w) (n : ℕ) :
    Transition.Guarded (step t) Evolves s (List.replicate n (.poll, w)) := by
  induction n generalizing s with
  | zero => trivial
  | succ n ih =>
    refine ⟨⟨fun hcall => (by cases hcall), fun i _ halive u hu => h u hu ▸ halive⟩, ih ?_⟩
    rintro u hu
    exact (Option.some.inj hu).symm

/-! ### A process that does not end -/

/-- A process of the user with a parenthesis in its name. -/
def sampleProcess (parent : Fin 100) : Process where
  comm := ofString "a) R 1"
  state := .sleeping
  parent := parent
  middle := List.replicate 17 0
  started := 500
  after := [0]
  uid := 1000
  cgroup := []
  parent_lt := by omega
  started_lt := by omega
  length_middle := rfl
  after_ne := List.cons_ne_nil _ _

/-- The shell is 10, and 20 is to be ended. -/
def sampleWorld : World where
  processes pid :=
    if pid = 1 then some (sampleProcess 0)
    else if pid = 10 then some (sampleProcess 1)
    else if pid = 20 then some (sampleProcess 10)
    else none
  procs _ := none
  permits _ := true
  pos pid p h := by
    split_ifs at h <;> omega
  init p h := by
    rw [if_pos rfl] at h
    rw [← Option.some.inj h]
    rfl

def sampleTerminator (graceMs : Fin (2 ^ 32)) : Terminator :=
  ⟨graceMs, 10, 1000, graceMs.isLt, by omega⟩

theorem alive_sample : sampleWorld.Alive ⟨20, 500⟩ :=
  ⟨sampleProcess 10, rfl, rfl, fun h => (by cases h)⟩

theorem ancestor_sample (graceMs : Fin (2 ^ 32)) (level : ℕ) :
    ancestor sampleWorld (sampleTerminator graceMs) level ≠ 20 := by
  cases level with
  | zero => exact fun h => absurd (show (10 : ℤ) = 20 from h) (by decide)
  | succ level =>
    have hparent : sampleWorld.parent 10 = 1 := rfl
    have hle := iterate_parent_le sampleWorld hparent.le level
    rw [ancestor, Function.iterate_succ_apply]
    intro heq
    have : sampleWorld.parent^[level] (sampleWorld.parent 10) = 20 := heq
    omega

theorem maySignal_sample (graceMs : Fin (2 ^ 32)) :
    maySignal sampleWorld 20 (sampleTerminator graceMs) = true :=
  maySignal_iff.mpr ⟨by decide, fun level _ => ancestor_sample graceMs level,
    sampleProcess 10, rfl, rfl, by decide⟩

/-- The state in which `terminate` is called. -/
def sampleTaken : State :=
  { targets := [(20, 500)], taken := [⟨20, 500, sampleWorld⟩], past := [sampleWorld] }

theorem step_sample (graceMs : Fin (2 ^ 32)) :
    step (sampleTerminator graceMs) {} (.add 20 false, sampleWorld) = sampleTaken := by
  have hstart : startTime sampleWorld 20 = 500 := startTime_of_alive alive_sample
  rw [step, State.call, add, maySignal_sample graceMs]
  simp only [Bool.not_true, Bool.false_eq_true, if_false, Bool.not_false, if_true, State.insert,
    hstart]
  rfl

/-- The calls of the run. -/
def sampleRun (polls : ℕ) : List (Call × World) :=
  (.add 20 false, sampleWorld) :: (.terminate, sampleWorld) ::
    List.replicate polls (.poll, sampleWorld)

theorem evolves_sample (graceMs : Fin (2 ^ 32)) (polls : ℕ) :
    Transition.Guarded (step (sampleTerminator graceMs)) Evolves {} (sampleRun polls) := by
  refine ⟨⟨fun h => (by cases h), fun i h => ?_⟩, ?_⟩
  · obtain ⟨u, hu, -⟩ := h
    cases hu
  · rw [step_sample graceMs]
    refine ⟨⟨fun _ => rfl, fun i _ halive u hu => ?_⟩, evolves_polls _ (fun u hu => ?_) polls⟩
    · exact Option.some.inj hu ▸ halive
    · exact (Option.some.inj hu).symm

theorem sound_of_guarded_sample : Sound (sampleTerminator 100)
    (Transition.run (step (sampleTerminator 100)) {} (sampleRun 1)) := by
  have hfair (s : State) (a : Taken) (_ : a ∈ s.taken) (_ : sampleWorld.Alive a.instance) :
      sampleWorld.permits a.pid = true := rfl
  refine (sound_of_guarded _ _ (evolves_sample 100 1) ⟨⟨by decide, ?_, ?_, hfair _⟩,
    ⟨by decide, fun _ _ _ h => (by cases h), fun _ h => absurd h List.not_mem_nil, hfair _⟩,
    ⟨by decide, fun _ _ _ h => (by cases h), fun _ h => absurd h List.not_mem_nil, hfair _⟩,
    trivial⟩).1
  · exact fun _ _ _ _ h => (by cases h)
  · rintro pid hpid -
    rw [asked, if_neg (by decide), List.mem_singleton] at hpid
    exact hpid ▸ ancestor_sample 100 64

/-- The process is asked and goes on. -/
theorem terminate_sample (graceMs : Fin (2 ^ 32)) (hpos : 0 < graceMs.val) :
    step (sampleTerminator graceMs) sampleTaken (.terminate, sampleWorld) = { sampleTaken with
      phase := .waiting 0
      log := [⟨.term, 20, sampleWorld, 0⟩]
      past := [sampleWorld, sampleWorld] } ∧ anyAlive sampleWorld sampleTaken = true := by
  have hnodup : (sampleTaken.targets.map Prod.fst).Nodup := List.pairwise_singleton _ _
  have hlive : isLive sampleWorld (20, 500) = true := (isLive_iff (by decide)).mpr alive_sample
  have halive : anyAlive sampleWorld sampleTaken = true :=
    (anyAlive_iff hnodup).mpr ⟨_, List.mem_cons_self, hlive⟩
  have hfilter : sampleTaken.targets.filter (isLive sampleWorld) = sampleTaken.targets :=
    List.filter_cons_of_pos hlive
  have hsignal : (signalAll sampleWorld sampleTaken .term).2 =
      { sampleTaken with log := [⟨.term, 20, sampleWorld, 0⟩] } := by
    rw [signalAll_eq _ _ hnodup, sendings, hfilter]
    rfl
  have halive' : anyAlive sampleWorld (signalAll sampleWorld sampleTaken .term).2 = true := by
    rw [hsignal]
    exact halive
  have hne : sampleTaken.targets ≠ [] := List.cons_ne_nil _ _
  have hcall : sampleTaken.call sampleWorld (sampleTerminator graceMs) .terminate =
      { sampleTaken with phase := .waiting 0, log := [⟨.term, 20, sampleWorld, 0⟩] } := by
    rw [call_terminate rfl, if_neg hne, look, if_pos, hsignal]
    rw [halive', Bool.and_true]
    exact decide_eq_true hpos
  exact ⟨by rw [step, hcall]; rfl, halive⟩

/-- The grace time is the largest number, and a process does not end. -/
theorem not_sound_forever : ¬∀ (t : Terminator) (es : List (Call × World)),
    Transition.Guarded (step t) Evolves {} es → Sound t (Transition.run (step t) {} es) := by
  intro hsound
  have hends := (hsound (sampleTerminator (Fin.last _)) (sampleRun 42949673)
    (evolves_sample _ _)).ends.2
  have hrun : Transition.run (step (sampleTerminator (Fin.last _))) {} (sampleRun 42949673) =
      Transition.run (step (sampleTerminator (Fin.last _)))
        (step (sampleTerminator (Fin.last _)) sampleTaken (.terminate, sampleWorld))
        (List.replicate 42949673 (.poll, sampleWorld)) := by
    rw [sampleRun, Transition.run_cons, Transition.run_cons, step_sample]
  obtain ⟨hstate, halive⟩ := terminate_sample (Fin.last _) (by decide)
  obtain ⟨waited, hphase, hpolls⟩ := waits_forever (t := sampleTerminator (Fin.last _))
    (s := step (sampleTerminator (Fin.last _)) sampleTaken (.terminate, sampleWorld))
    (w := sampleWorld) rfl (by rw [hstate]) (dvd_zero 4) (by rw [hstate]; exact halive) 42949673
  rw [← hrun] at hphase hpolls
  have hlt := hends waited hphase
  rw [hpolls, hstate] at hlt
  exact absurd hlt (by decide)

end ProcessTerminator

end SingularityShell
