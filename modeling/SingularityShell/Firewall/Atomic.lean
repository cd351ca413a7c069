import Mathlib.Logic.Function.Basic
import SingularityShell.Firewall.Ruleset
import SingularityShell.Firewall.Store

/-!
# Saving and applying

A command that changes the state saves the file first, beside it and renamed into its place, and
hands the ruleset to `nft` then. Each of the two steps is a row of system calls that may fail.

## Main definitions

* `Firewall.Options`, `Firewall.parse` — the command line
* `Firewall.Calls` — how the system calls of one run end
* `Firewall.Machine`, `Firewall.Machine.main` — the files with the rules that are loaded, and one
  run
* `Firewall.Atomic` — either nothing has changed or the file and the rules both have

## Main results

* `Firewall.atomic_iff` — when a command is atomic
* `Firewall.not_atomic` — it is not where `nft` is missing
-/

namespace SingularityShell

namespace Firewall

open Ascii CString

/-! ### The command line -/

structure Options where
  /-- `FIREWALL_STATE_FILE` -/
  path : Text := ofString "/var/lib/singularity/firewall.state"
  nft : Option Text := none
  dryRun : Bool := false

/-- The options, the command and its arguments. `allowed` stands for `overrides_allowed`. -/
def parse (allowed : Bool) (o : Options) : List Text → Except Reply (Options × Text × List Text)
  | [] => .error usage
  | arg :: rest =>
    if (ofString "--").isPrefixOf arg then
      if !allowed then .error (.exits 2 [] (ofString "options are not accepted here\n"))
      else if arg = ofString "--dry-run" then parse allowed { o with dryRun := true } rest
      else
        match rest with
        | [] => .error usage
        | value :: rest =>
          if arg = ofString "--state" then parse allowed { o with path := value } rest
          else if arg = ofString "--nft" then parse allowed { o with nft := some value } rest
          else .error usage
    else .ok (o, arg, rest)

/-! ### One run of the helper -/

/-- How the system calls of one run end. -/
structure Calls where
  /-- The state file is opened, or is not there. -/
  reads : Bool := true
  allocates : Bool := true
  opens : Bool := true
  fdopens : Bool := true
  /-- Whether the byte at a place of the output reaches the file: a write that fails loses some. -/
  wrote : ℕ → Bool := fun _ => true
  closes : Bool := true
  renames : Bool := true
  /-- One of the candidates for `nft` may be executed. -/
  installed : Bool := true
  pipes : Bool := true
  forks : Bool := true
  /-- `nft` has gone before the end of its input, which it therefore has not taken. -/
  breaks : Bool := false
  /-- `SIGPIPE` is not ignored. -/
  sigpipe : Bool := true
  waits : Bool := true
  /-- The exit code of `nft`, unless a signal ends it. -/
  nftExit : Option ℕ := some 0
  strerror : Text := []

/-- The bytes of a text that reach the file. -/
def Calls.written (c : Calls) (text : Text) : Text :=
  (text.zipIdx.filter fun b => c.wrote b.2).map Prod.fst

/-- What a run prints and its exit status, which it has unless a signal ends it. -/
structure Outcome where
  status : Option ℕ
  out : Text := []
  err : Text := []

structure Machine where
  files : Text → Option Text
  /-- The ruleset that `nft` has accepted. -/
  loaded : Text

/-- The name that is written to, in its buffer. -/
def tmpOf (path : Text) : Text := snprintf 4096 (path ++ ofString ".tmp")

def Machine.save (m : Machine) (path : Text) (c : Calls) (st : State) : Bool × Machine :=
  if !c.opens then (false, m)
  else if !c.fdopens then
    (false, { m with files := Function.update m.files (tmpOf path) (some []) })
  else
    let text := c.written (saveState st)
    let m := { m with files := Function.update m.files (tmpOf path) (some text) }
    if !c.closes || !c.renames then (false, m)
    -- A file that is renamed to itself stays.
    else if tmpOf path = path then (true, m)
    else
      let files := Function.update m.files (tmpOf path) none
      (true, { m with files := Function.update files path (some text) })

def Machine.apply (m : Machine) (o : Options) (c : Calls) (st : State) : Outcome × Machine :=
  if !c.allocates then ({ status := some 1 }, m)
  else if o.dryRun then ({ status := some 0, out := buildRuleset st }, m)
  else if !(o.nft.isSome || c.installed) then
    ({ status := some 3, err := ofString "nft is not installed\n" }, m)
  else if !c.pipes || !c.forks then ({ status := some 1 }, m)
  else if c.breaks && c.sigpipe then ({ status := none }, m)
  else
    -- Without an answer of `waitpid` the status is the zero it starts with.
    ({ status := some (if !c.waits || c.nftExit = some 0 then 0 else 4) },
      if !c.breaks && c.nftExit = some 0 then { m with loaded := buildRuleset st } else m)

/-- The end of a run that cannot read or write its file. -/
def failure (what : String) (path : Text) (c : Calls) : Outcome :=
  { status := some 1, err := ofString what ++ path ++ ofString ": " ++ c.strerror ++ ofString "\n" }

theorem failure_status (what : String) (path : Text) (c : Calls) :
    (failure what path c).status ≠ some 0 := fun h => absurd (Option.some.inj h) (by decide)

/-- What is done about the reply to a command. -/
def Machine.finish (m : Machine) (o : Options) (c : Calls) : Reply → Outcome × Machine
  | .exits code out err => ({ status := some code, out := out, err := err }, m)
  | .applies => m.apply o c (loadState (m.files o.path))
  | .stores st =>
    if o.dryRun then m.apply o c st
    else
      match m.save o.path c st with
      | (true, m) => m.apply o c st
      | (false, m) => (failure "cannot write " o.path c, m)

def Machine.main (m : Machine) (allowed : Bool) (c : Calls) (argv : List Text) :
    Outcome × Machine :=
  match parse allowed {} argv with
  | .error r => m.finish {} c r
  | .ok (o, cmd, args) =>
    if !c.reads then (failure "cannot read " o.path c, m)
    else m.finish o c (command (loadState (m.files o.path)) cmd args)

/-! ### What is meant -/

/-- The commands that change the state. -/
def changing : List Text :=
  [ofString "enable", ofString "disable", ofString "profile", ofString "allow", ofString "revoke"]

/-- The rules that are loaded are those of the state that is stored. -/
def Machine.Agrees (m : Machine) (path : Text) : Prop :=
  m.loaded = buildRuleset (loadState (m.files path))

/-- What a run may leave: the file as it was when it fails, and the new state both stored and loaded
when it succeeds. -/
structure Settled (m : Machine) (o : Options) (cmd : Text) (args : List Text)
    (r : Outcome × Machine) : Prop where
  failed : r.1.status ≠ some 0 → r.2.files o.path = m.files o.path
  stored : r.1.status = some 0 → o.dryRun = false → ∃ st,
    command (loadState (m.files o.path)) cmd args = .stores st ∧
      r.2.files o.path = some (saveState st) ∧ r.2.loaded = buildRuleset st
  agrees : m.Agrees o.path → r.2.Agrees o.path

def Atomic (m : Machine) (allowed : Bool) (c : Calls) (argv : List Text) : Prop :=
  ∀ o cmd args, parse allowed {} argv = .ok (o, cmd, args) → cmd ∈ changing →
    Settled m o cmd args (m.main allowed c argv)

/-- The file is in its place. -/
def Calls.saves (c : Calls) : Bool := c.opens && c.fdopens && c.closes && c.renames

/-- The helper takes the rules to be loaded. -/
def Calls.succeeds (c : Calls) (o : Options) : Bool :=
  c.allocates && (o.nft.isSome || c.installed) && c.pipes && c.forks && !(c.breaks && c.sigpipe) &&
    (!c.waits || c.nftExit = some 0)

/-- Saving or applying does not stop where one of the file and the rules is new and the other is
not: applying succeeds once the file is in its place, or the file is as it was. -/
def Calls.Even (c : Calls) (m : Machine) (o : Options) (st : State) : Prop :=
  if c.saves then
    if c.succeeds o then
      c.written (saveState st) = saveState st ∧
        (c.breaks = false ∧ c.nftExit = some 0 ∨ m.loaded = buildRuleset st)
    else m.files o.path = some (c.written (saveState st))
  else
    c.opens = true → o.path.length = 4095 →
      m.files o.path = some (if c.fdopens then c.written (saveState st) else [])

/-! ### The two steps -/

variable {m : Machine} {o : Options} {c : Calls} {st : State}

theorem tmpOf_eq_iff (path : Text) : tmpOf path = path ↔ path.length = 4095 := by
  have hlen : (path ++ ofString ".tmp").length = path.length + 4 := List.length_append
  constructor
  · intro h
    have htmp : (tmpOf path).length = min 4095 (path.length + 4) := by
      rw [tmpOf, snprintf, List.length_take, hlen]
    rw [h] at htmp
    omega
  · intro h
    rw [tmpOf, snprintf, List.take_append_of_le_length (by omega),
      List.take_of_length_le (by omega)]

/-- What saving leaves in the file. -/
theorem save_spec (m : Machine) (path : Text) (c : Calls) (st : State) :
    (m.save path c st).1 = c.saves ∧ (m.save path c st).2.loaded = m.loaded ∧
      (m.save path c st).2.files path =
        if c.saves then some (c.written (saveState st))
        else if c.opens && path.length = 4095 then
          some (if c.fdopens then c.written (saveState st) else [])
        else m.files path := by
  have hself : ∀ text, Function.update m.files (tmpOf path) (some text) path =
      if path.length = 4095 then some text else m.files path := fun text => by
    split_ifs with h
    · rw [(tmpOf_eq_iff path).mpr h, Function.update_self]
    · exact Function.update_of_ne (fun he => h ((tmpOf_eq_iff path).mp he.symm)) ..
  rw [Machine.save, Calls.saves]
  cases c.opens with
  | false => exact ⟨rfl, rfl, rfl⟩
  | true =>
    cases c.fdopens with
    | false => exact ⟨rfl, rfl, by simpa using hself []⟩
    | true =>
      by_cases hdone : (c.closes && c.renames) = true
      · have hfail : (!c.closes || !c.renames) = false := by rw [← Bool.not_and, hdone]; rfl
        simp only [hfail, Bool.true_and, hdone, Bool.not_true, Bool.false_eq_true, if_false,
          if_true]
        split_ifs with htmp
        · exact ⟨rfl, rfl, (hself _).trans (if_pos ((tmpOf_eq_iff path).mp htmp))⟩
        · exact ⟨rfl, rfl, Function.update_self ..⟩
      · rw [Bool.not_eq_true] at hdone
        have hfail : (!c.closes || !c.renames) = true := by rw [← Bool.not_and, hdone]; rfl
        simp only [hfail, Bool.true_and, hdone, Bool.not_true, Bool.false_eq_true, if_false,
          if_true, decide_eq_true_eq]
        exact ⟨trivial, trivial, hself _⟩

/-- Applying leaves the files, and the rules too unless it succeeds. -/
theorem apply_spec (m : Machine) (c : Calls) (st : State) (h : o.dryRun = false) :
    ((m.apply o c st).1.status = some 0 ↔ c.succeeds o = true) ∧
      (m.apply o c st).2.files = m.files ∧
      (m.apply o c st).2.loaded =
        if c.succeeds o && (!c.breaks && c.nftExit = some 0) then buildRuleset st
        else m.loaded := by
  rw [Machine.apply, Calls.succeeds, h]
  cases c.allocates with
  | false => simp
  | true =>
    cases (o.nft.isSome || c.installed) with
    | false => simp
    | true =>
      cases c.pipes with
      | false => simp
      | true =>
        cases c.forks with
        | false => simp
        | true =>
          by_cases hkilled : (c.breaks && c.sigpipe) = true
          · simp [hkilled]
          · rw [Bool.not_eq_true] at hkilled
            by_cases hexit : c.nftExit = some 0
            · -- The rules are loaded unless `nft` has not taken them.
              cases hbreaks : c.breaks with
              | false => simp [hexit]
              | true => simp [hexit, hbreaks ▸ hkilled]
            · -- Only the missing answer of `waitpid` makes this a success, and nothing is loaded.
              cases c.waits with
              | false => simp [hexit, hkilled]
              | true => simp [hexit, hkilled]

/-! ### Commands -/

/-- What a reply to a changing command is. -/
def Reply.Changes : Reply → Prop
  | .exits code _ _ => code ≠ 0
  | .applies => False
  | .stores _ => True

theorem allow_changes (st : State) (id pub ports label : Text) :
    (allow st id pub ports label).Changes := by
  rw [allow]
  split
  · show 2 ≠ 0
    decide
  · dsimp only
    split
    · trivial
    · split
      · show 1 ≠ 0
        decide
      · trivial

/-- A command that changes the state stores one or fails. -/
theorem command_changes {cmd : Text} (h : cmd ∈ changing) (st : State) (args : List Text) :
    (command st cmd args).Changes := by
  have husage : usage.Changes := by
    show 2 ≠ 0
    decide
  have hnot : cmd ≠ ofString "status" ∧ cmd ≠ ofString "apply" := by
    have : ∀ t ∈ changing, t ≠ ofString "status" ∧ t ≠ ofString "apply" := by decide
    exact this cmd h
  rw [command.eq_def, if_neg fun hs => hnot.1 hs.1, if_neg fun ha => hnot.2 ha.1]
  split
  · trivial
  split
  · trivial
  split
  · split
    · split
      · trivial
      · exact husage
    · exact husage
  split
  · split
    · exact allow_changes ..
    · exact husage
  split
  · split
    · split
      · trivial
      · exact husage
    · exact husage
  · exact husage

/-- A run that changes nothing is in order if it fails or is a trial. -/
theorem Settled.of_eq {cmd : Text} {args : List Text} {r : Outcome × Machine} (h : r.2 = m)
    (hstatus : r.1.status ≠ some 0 ∨ o.dryRun = true) : Settled m o cmd args r where
  failed _ := by rw [h]
  stored hz hd := hstatus.elim (absurd hz) fun ht => absurd (ht.symm.trans hd) (by decide)
  agrees ha := by rwa [h]

/-- A command that stores a state is in order where saving and applying are even. -/
theorem settled_iff {cmd : Text} {args : List Text} (hdry : o.dryRun = false)
    (hst : command (loadState (m.files o.path)) cmd args = .stores st) :
    Settled m o cmd args (m.finish o c (.stores st)) ↔ c.Even m o st := by
  obtain ⟨hok, hloaded, hfile⟩ := save_spec m o.path c st
  have hsound : st.Sound := (loadState_sound _).command hst
  rw [Calls.Even, Machine.finish, hdry, if_neg (by decide)]
  cases hsaves : c.saves with
  | false =>
    simp only [hsaves, Bool.false_eq_true, if_false, Bool.and_eq_true, decide_eq_true_eq]
      at hok hfile
    rw [if_neg (by decide)]
    obtain ⟨m', hm'⟩ : ∃ m', m' = (m.save o.path c st).2 := ⟨_, rfl⟩
    rw [← hm'] at hloaded hfile
    rw [show m.save o.path c st = (false, m') from Prod.ext hok hm'.symm]
    dsimp only
    constructor
    · intro h hopens hlen
      rw [← h.failed (failure_status _ _ _), hfile, if_pos ⟨hopens, hlen⟩]
    · intro h
      have hsame : m'.files o.path = m.files o.path := by
        by_cases ht : c.opens = true ∧ o.path.length = 4095
        · rw [hfile, if_pos ht, h ht.1 ht.2]
        · rw [hfile, if_neg ht]
      refine ⟨fun _ => hsame, fun hz => absurd hz (failure_status _ _ _), fun ha => ?_⟩
      rw [Machine.Agrees, hloaded, hsame]
      exact ha
  | true =>
    simp only [hsaves, if_true] at hok hfile
    obtain ⟨m', hm'⟩ : ∃ m', m' = (m.save o.path c st).2 := ⟨_, rfl⟩
    rw [← hm'] at hloaded hfile
    rw [show m.save o.path c st = (true, m') from Prod.ext hok hm'.symm, if_pos rfl]
    dsimp only
    obtain ⟨hstatus, hfiles, hrules⟩ := apply_spec (o := o) m' c st hdry
    rw [hloaded] at hrules
    cases hsucceeds : c.succeeds o with
    | false =>
      rw [hsucceeds, Bool.false_and, if_neg (by decide)] at hrules
      have hne : (m'.apply o c st).1.status ≠ some 0 := fun hz =>
        absurd (hstatus.mp hz) (by rw [hsucceeds]; decide)
      rw [if_neg (by decide)]
      constructor
      · intro h
        rw [← h.failed hne, hfiles, hfile]
      · intro h
        have hsame : (m'.apply o c st).2.files o.path = m.files o.path := by rw [hfiles, hfile, h]
        refine ⟨fun _ => hsame, fun hz => absurd hz hne, fun ha => ?_⟩
        rw [Machine.Agrees, hrules, hsame]
        exact ha
    | true =>
      have hz : (m'.apply o c st).1.status = some 0 := hstatus.mpr hsucceeds
      rw [hsucceeds, Bool.true_and] at hrules
      rw [if_pos rfl]
      constructor
      · intro h
        obtain ⟨st', hst', hstored, hnew⟩ := h.stored hz hdry
        obtain rfl := Reply.stores.inj (hst.symm.trans hst')
        rw [hfiles, hfile] at hstored
        refine ⟨Option.some.inj hstored, ?_⟩
        by_cases haccepts : (!c.breaks && decide (c.nftExit = some 0)) = true
        · exact .inl (by simpa using haccepts)
        · rw [if_neg haccepts] at hrules
          exact .inr (hrules.symm.trans hnew)
      · rintro ⟨hwritten, haccepts⟩
        have hnew : (m'.apply o c st).2.loaded = buildRuleset st := by
          rw [hrules]
          rcases haccepts with ⟨hb, he⟩ | he
          · rw [hb, he]
            rfl
          · rw [he, ite_self]
        have hstored : (m'.apply o c st).2.files o.path = some (saveState st) := by
          rw [hfiles, hfile, hwritten]
        refine ⟨fun hne => absurd hz hne, fun _ _ => ⟨st, hst, hstored, hnew⟩, fun _ => ?_⟩
        rw [Machine.Agrees, hnew, hstored, loadState_saveState hsound]

/-- **When a command is atomic**: one that stores a state has to be even, and every other one is. -/
theorem atomic_iff (m : Machine) (allowed : Bool) (c : Calls) (argv : List Text) :
    Atomic m allowed c argv ↔ ∀ o cmd args st, parse allowed {} argv = .ok (o, cmd, args) →
      cmd ∈ changing → c.reads = true → o.dryRun = false →
        command (loadState (m.files o.path)) cmd args = .stores st → c.Even m o st := by
  have hmain : ∀ {o cmd args}, parse allowed {} argv = .ok (o, cmd, args) → c.reads = true →
      m.main allowed c argv = m.finish o c (command (loadState (m.files o.path)) cmd args) := by
    intro o cmd args hparse hreads
    rw [Machine.main, hparse]
    simp [hreads]
  constructor
  · intro h o cmd args st hparse hcmd hreads hdry hst
    have hset := h o cmd args hparse hcmd
    rw [hmain hparse hreads, hst] at hset
    exact (settled_iff hdry hst).mp hset
  · intro h o cmd args hparse hcmd
    cases hreads : c.reads with
    | false =>
      have hfail : m.main allowed c argv = (failure "cannot read " o.path c, m) := by
        rw [Machine.main, hparse]
        simp [hreads]
      rw [hfail]
      exact .of_eq rfl (.inl (failure_status _ _ _))
    | true =>
      have hchanges := command_changes hcmd (loadState (m.files o.path)) args
      rw [hmain hparse hreads]
      cases hst : command (loadState (m.files o.path)) cmd args with
      | exits code out err =>
        rw [hst] at hchanges
        exact .of_eq rfl (.inl fun hz => hchanges (Option.some.inj hz))
      | applies =>
        rw [hst] at hchanges
        exact hchanges.elim
      | stores st =>
        cases hdry : o.dryRun with
        | false => exact (settled_iff hdry hst).mpr (h o cmd args st hparse hcmd hreads hdry hst)
        | true =>
          refine .of_eq ?_ (.inr hdry)
          rw [Machine.finish, hdry, if_pos rfl, Machine.apply]
          split_ifs <;> rfl

/-- The firewall is enabled where `nft` is missing: the file says so, and the helper fails. -/
theorem not_atomic : ¬∀ (m : Machine) (allowed : Bool) (c : Calls) (argv : List Text),
    Atomic m allowed c argv := by
  intro h
  have hset := h ⟨fun _ => none, []⟩ true { installed := false } [ofString "enable"] {}
    (ofString "enable") [] rfl (by decide)
  exact absurd (hset.failed (by decide)) (by decide +kernel)

end Firewall

end SingularityShell
