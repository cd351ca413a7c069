import SingularityShell.Lib.Ascii
import SingularityShell.Lib.Machine
import SingularityShell.Lib.Transition
import Mathlib.Data.List.Sort

/-!
# The crash handler's spool

The model of the part of `services/crash-handler/main.c` that decides which files a user's spool
directory holds: two calls of `prune`, one for the reports before a report is written and one for
the cores after a core is. A directory is read through an open descriptor, which has a position, and
a duplicate of it has the same one. Both calls duplicate the descriptor of the directory, so the
second one goes on reading where the first has stopped, at the end.

What the system does is not determined: in which order a directory is listed, whether a new entry
comes before or after the position, and whether a core can be written. `System` has these choices.

## Main definitions

* `Crash.Dir` — an open directory
* `Crash.prune`, `Crash.handle` — what one run of the handler does to the directory
* `Crash.Room` — there is room for the core that a run writes
* `Crash.Retained` — which files a run has to keep

## Main results

* `Crash.run_retained` — retention in every run with room for its core
* `Crash.not_retained_of_cores` — the spool is full of cores
-/

namespace SingularityShell

namespace Crash

open Ascii Machine

/-- An open directory: the names `readdir` has passed, and those that are still to come. -/
structure Dir where
  passed : List Text
  rest : List Text

namespace Dir

variable (d : Dir)

/-- `open`. -/
def ofNames (names : List Text) : Dir := ⟨[], names⟩

/-- The names in the directory. -/
def names : List Text := d.passed ++ d.rest

/-- `unlinkat`. -/
def unlink (name : Text) : Dir := ⟨d.passed.erase name, d.rest.erase name⟩

/-- `renameat` of a temporary file to its name. The new entry is after the position or before. -/
def put (ahead : Bool) (name : Text) : Dir :=
  if ahead then ⟨(d.unlink name).passed, (d.unlink name).rest ++ [name]⟩
  else ⟨name :: (d.unlink name).passed, (d.unlink name).rest⟩

end Dir

/-- The fields of `struct config` that decide about files, after `load_config`. -/
structure Config where
  enabled : Bool
  minUid : ℤ
  keepCore : Bool
  maxCoreMb : ℕ
  maxReports : ℕ
  maxCores : ℕ

/-- The arguments of a run. Numbers are parsed as `long`, and the pid is checked to be positive. -/
structure Args where
  pid : ℕ
  pid_lt : pid < 2 ^ 63
  uid : ℤ
  when : ℕ
  dumpable : ℤ

/-- What the system does in a run that succeeds. -/
structure System where
  /-- The order in which the directory is listed. -/
  order : List Text
  /-- The length of the core on the standard input. -/
  coreLength : ℕ
  /-- A system call of `write_core` fails. -/
  coreFails : Bool
  /-- The new core is after the position of the descriptor. -/
  ahead : Bool

/-- `strcmp(de->d_name + len - slen, suffix) == 0`, and what `prune` asks besides. -/
def listed (suffix name : Text) : Bool :=
  suffix.length < name.length && name.drop (name.length - suffix.length) = suffix &&
    name.length < 256

/-- `prune`. The descriptor it reads from is a duplicate of `dir`, with the position of `dir`. -/
def prune (d : Dir) (suffix : Text) (keep : ℕ) : Dir :=
  let list := d.rest.filter (listed suffix)
  let d : Dir := ⟨d.passed ++ d.rest, []⟩
  if keep < list.length then
    ((list.insertionSort (· ≤ ·)).take (list.length - keep)).foldl Dir.unlink d
  else d

/-- `"%010ld-%ld"`. -/
def base (a : Args) : Text := padded 10 a.when ++ ofString "-" ++ decimal a.pid

/-- `"%s.crash"`. -/
def reportName (a : Args) : Text := base a ++ ofString ".crash"

/-- `"%s.core"`. -/
def coreName (a : Args) : Text := base a ++ ofString ".core"

/-- The handler is on for the user. -/
def handles (cfg : Config) (a : Args) : Bool := cfg.enabled && decide (cfg.minUid ≤ a.uid)

/-- A core is written: it is wanted, and `write_core` returns `0`. The limit in bytes is a
`long`. -/
def writesCore (cfg : Config) (a : Args) (sys : System) : Bool :=
  cfg.keepCore && decide (0 < cfg.maxCores) && decide (a.dumpable = 1) &&
    decide (0 < cfg.maxCoreMb) && !sys.coreFails && decide (0 < sys.coreLength) &&
    decide (sys.coreLength ≤ wrap64 (wrap64 (cfg.maxCoreMb * 1024) * 1024))

/-- The directory after a run of `main` that succeeds. -/
def handle (cfg : Config) (names : List Text) (run : Args × System) : List Text :=
  let a := run.1
  let sys := run.2
  if handles cfg a then
    let d := Dir.ofNames (if sys.order.Perm names then sys.order else names)
    let d := prune d (ofString ".crash") (cfg.maxReports - 1)
    let d := if writesCore cfg a sys then
        prune (d.put sys.ahead (coreName a)) (ofString ".core") cfg.maxCores
      else d
    (d.put false (reportName a)).names
  else names

/-! ### What has to be kept -/

/-- The TIME in the name of a file. -/
def timeOf (name : Text) : ℕ := value (name.take 10)

/-- The files with the suffix. -/
def files (suffix : Text) (names : List Text) : List Text := names.filter (listed suffix)

/-- Of the files that were there, and the one that was written, the newest are kept. -/
structure Retained (suffix : Text) (max : ℕ) (before : List Text) (written : Option Text)
    (after : List Text) : Prop where
  /-- As many are kept as may be. -/
  count : (files suffix after).length =
    Nat.min max ((files suffix before).length + written.toList.length)
  /-- They are those that were there, and the new one. -/
  subset : ∀ n ∈ files suffix after, n ∈ files suffix before ∨ n ∈ written
  /-- No file that is gone is newer than one that is kept. -/
  newest : ∀ n, (n ∈ files suffix before ∨ n ∈ written) → n ∉ after →
    ∀ k ∈ files suffix after, timeOf n ≤ timeOf k
  written : ∀ n ∈ written, n ∈ files suffix after

/-! ### Names -/

theorem suffix_of_listed {suffix name : Text} (h : listed suffix name = true) :
    suffix <:+ name := by
  simp only [listed, Bool.and_eq_true, decide_eq_true_eq] at h
  rw [← h.1.2]
  exact List.drop_suffix _ _

theorem listed_append {suffix p : Text} (hp : p ≠ []) (hlen : (p ++ suffix).length < 256) :
    listed suffix (p ++ suffix) = true := by
  have hpos := List.length_pos_iff.mpr hp
  simp only [listed, Bool.and_eq_true, decide_eq_true_eq, List.length_append] at hlen ⊢
  refine ⟨⟨by omega, ?_⟩, hlen⟩
  rw [show p.length + suffix.length - suffix.length = p.length by omega, List.drop_left]

/-- No file is a report and a core. -/
theorem not_listed_both {name : Text} (hr : listed (ofString ".crash") name = true) :
    listed (ofString ".core") name = false := by
  by_contra hc
  have hsub := List.suffix_of_suffix_length_le (suffix_of_listed (by simpa using hc))
    (suffix_of_listed hr) (by decide)
  exact absurd hsub (by decide)

theorem length_base (a : Args) (hw : a.when < 10 ^ 10) : (base a).length < 64 := by
  have hpid : (decimal a.pid).length ≤ 20 :=
    (length_decimal_le (by omega)).mpr (by have := a.pid_lt; omega)
  obtain ⟨hlen, -, -⟩ := padded_spec 10 (by omega) hw
  have hdash : (ofString "-").length = 1 := rfl
  simp only [base, List.length_append, hlen, hdash]
  omega

/-- The name of a file that a run writes: it is listed, and its TIME is that of the run. -/
theorem name_spec (a : Args) (hw : a.when < 10 ^ 10) (suffix : Text) (hs : suffix.length < 64) :
    listed suffix (base a ++ suffix) = true ∧ timeOf (base a ++ suffix) = a.when ∧
      (base a ++ suffix).take 10 = padded 10 a.when := by
  obtain ⟨hlen, -, hval⟩ := padded_spec 10 (by omega) hw
  have hbase := length_base a hw
  have htake : (base a ++ suffix).take 10 = padded 10 a.when := by
    have happ :
        base a ++ suffix = padded 10 a.when ++ (ofString "-" ++ decimal a.pid ++ suffix) := by
      simp [base]
    rw [happ]
    exact List.take_left' hlen
  refine ⟨listed_append (fun hn => ?_) ?_, ?_, htake⟩
  · have := congrArg List.length hn
    simp [base, hlen] at this
  · rw [List.length_append]
    omega
  · rw [timeOf, htake, hval]

/-! ### Pruning -/

namespace Dir

theorem unlink_foldl (gone : List Text) (d : Dir) :
    gone.foldl unlink d = ⟨d.passed.diff gone, d.rest.diff gone⟩ := by
  induction gone generalizing d with
  | nil => rfl
  | cons g gone ih =>
    rw [List.foldl_cons, ih, List.diff_cons, List.diff_cons]
    rfl

theorem names_put (d : Dir) {name : Text} (h : name ∉ d.names) (ahead : Bool) :
    (d.put ahead name).names.Perm (name :: d.names) := by
  have hp : name ∉ d.passed := fun hc => h (List.mem_append_left _ hc)
  have hr : name ∉ d.rest := fun hc => h (List.mem_append_right _ hc)
  unfold put unlink
  rw [List.erase_of_not_mem hp, List.erase_of_not_mem hr]
  cases ahead with
  | false => exact .refl _
  | true =>
    simp only [if_true, names, ← List.append_assoc]
    exact List.perm_append_singleton _ _

end Dir

/-- The files that `prune` removes are the oldest of those it lists. -/
theorem prune_spec (d : Dir) (suffix : Text) (keep : ℕ) :
    ∃ gone : List Text, prune d suffix keep = ⟨(d.passed ++ d.rest).diff gone, []⟩ ∧
      gone.length = (files suffix d.rest).length - keep ∧
      gone.Subperm (files suffix d.rest) ∧
      ((files suffix d.rest).Nodup → ∀ g ∈ gone, ∀ n ∈ files suffix d.rest, n ∉ gone → g ≤ n) := by
  obtain ⟨l, hl⟩ : ∃ l, l = files suffix d.rest := ⟨_, rfl⟩
  obtain ⟨sorted, hsorted⟩ : ∃ sorted, sorted = l.insertionSort (· ≤ ·) := ⟨_, rfl⟩
  have hperm : sorted.Perm l := hsorted ▸ List.perm_insertionSort _ l
  have hpair : sorted.Pairwise (· ≤ ·) := hsorted ▸ List.pairwise_insertionSort _ l
  have hprune : prune d suffix keep = if keep < l.length then
      (sorted.take (l.length - keep)).foldl Dir.unlink ⟨d.passed ++ d.rest, []⟩
      else ⟨d.passed ++ d.rest, []⟩ := by
    rw [hsorted, hl]
    rfl
  rw [← hl]
  by_cases hkeep : keep < l.length
  · refine ⟨sorted.take (l.length - keep), ?_, ?_, ?_, fun _ g hg n hn hnot => ?_⟩
    · rw [hprune, if_pos hkeep, Dir.unlink_foldl, List.nil_diff]
    · rw [List.length_take, hperm.length_eq]
      omega
    · exact ((List.take_sublist _ _).subperm).trans hperm.subperm
    · have hn : n ∈ sorted.drop (l.length - keep) := by
        have := hperm.mem_iff.mpr hn
        rw [← List.take_append_drop (l.length - keep) sorted] at this
        exact (List.mem_append.mp this).resolve_left hnot
      rw [← List.take_append_drop (l.length - keep) sorted] at hpair
      exact (List.pairwise_append.mp hpair).2.2 g hg n hn
  · refine ⟨[], ?_, ?_, List.nil_subperm, fun _ g hg => absurd hg List.not_mem_nil⟩
    · rw [hprune, if_neg hkeep]
      rfl
    · simp only [List.length_nil]
      omega

theorem prune_of_le {d : Dir} {suffix : Text} {keep : ℕ}
    (h : (files suffix d.rest).length ≤ keep) : prune d suffix keep = ⟨d.names, []⟩ := by
  unfold prune
  exact if_neg (not_lt.mpr h)

/-! ### One run -/

/-- The report a run writes, and the core. -/
def reportOf (cfg : Config) (run : Args × System) : Option Text :=
  if handles cfg run.1 then some (reportName run.1) else none

def coreOf (cfg : Config) (run : Args × System) : Option Text :=
  if handles cfg run.1 && writesCore cfg run.1 run.2 then some (coreName run.1) else none

/-- The files of the spool have names with a TIME before `t`. -/
structure Stamped (names : List Text) (t : ℕ) : Prop where
  nodup : names.Nodup
  stamp : ∀ n ∈ names, listed (ofString ".crash") n = true ∨ listed (ofString ".core") n = true →
    (n.take 10).length = 10 ∧ (∀ b ∈ n.take 10, isDigit b = true) ∧ timeOf n < t

variable {cfg : Config} {names : List Text} {a : Args} {s : System} {t : ℕ}

/-- A run that handles a crash removes the oldest reports, and adds its files. -/
theorem handle_spec (h : Stamped names t) (hmax : 1 ≤ cfg.maxCores) (ht : t ≤ a.when)
    (hw : a.when < 10 ^ 10) (hon : handles cfg a = true) :
    ∃ gone : List Text, gone.length =
        (files (ofString ".crash") names).length - (cfg.maxReports - 1) ∧
      gone.Subperm (files (ofString ".crash") names) ∧
      (∀ g ∈ gone, ∀ n ∈ files (ofString ".crash") names, n ∉ gone → g ≤ n) ∧
      (handle cfg names (a, s)).Nodup ∧ (handle cfg names (a, s)).Perm
        (reportName a :: ((coreOf cfg (a, s)).toList ++ names.diff gone)) := by
  obtain ⟨names₀, hdef⟩ : ∃ l, l = if s.order.Perm names then s.order else names := ⟨_, rfl⟩
  have hperm : names₀.Perm names := by
    rw [hdef]
    split_ifs with ho
    · exact ho
    · exact .refl _
  have hfiles : (files (ofString ".crash") names₀).Perm (files (ofString ".crash") names) :=
    hperm.filter _
  obtain ⟨gone, hprune, hlen, hsub, hold⟩ :=
    prune_spec (Dir.ofNames names₀) (ofString ".crash") (cfg.maxReports - 1)
  change gone.length = (files (ofString ".crash") names₀).length - _ at hlen
  have hnodup : (files (ofString ".crash") names₀).Nodup := (hperm.nodup_iff.mpr h.nodup).filter _
  -- The names of the run are new.
  have hnew : ∀ suffix : Text, suffix = ofString ".crash" ∨ suffix = ofString ".core" →
      base a ++ suffix ∉ names := by
    intro suffix hs hn
    obtain ⟨hl, htime, -⟩ := name_spec a hw suffix (by rcases hs with rfl | rfl <;> decide)
    have := (h.stamp _ hn (by rcases hs with rfl | rfl <;> simp [hl])).2.2
    omega
  have hreport : reportName a ∉ names := hnew _ (Or.inl rfl)
  have hcore : coreName a ∉ names := hnew _ (Or.inr rfl)
  have hne : reportName a ≠ coreName a := fun he =>
    absurd (List.append_cancel_left he) (by decide)
  have hleft : ∀ n, n ∉ names → n ∉ names₀.diff gone := fun n hn hc =>
    hn (hperm.mem_iff.mp (List.diff_subset _ _ hc))
  have hcoreOf : ∀ n ∈ (coreOf cfg (a, s)).toList, n = coreName a := fun n hn => by
    unfold coreOf at hn
    split_ifs at hn
    · simpa using hn
    · simp at hn
  -- What the second call of `prune` finds is the new core at most.
  obtain ⟨d, hd⟩ : ∃ d, d = prune (Dir.ofNames names₀) (ofString ".crash") (cfg.maxReports - 1) :=
    ⟨_, rfl⟩
  have hd' : d = ⟨names₀.diff gone, []⟩ := hd.trans hprune
  have hdnames : d.names = names₀.diff gone := by
    rw [hd']
    exact List.append_nil _
  obtain ⟨e, he⟩ : ∃ e, e = if writesCore cfg a s then
      prune (d.put s.ahead (coreName a)) (ofString ".core") cfg.maxCores else d := ⟨_, rfl⟩
  have henames : e.names.Perm ((coreOf cfg (a, s)).toList ++ names₀.diff gone) := by
    rw [he]
    split_ifs with hwrites
    · have hrest : (files (ofString ".core") (d.put s.ahead (coreName a)).rest).length ≤
          cfg.maxCores := by
        refine (List.length_filter_le _ _).trans (le_trans ?_ hmax)
        rw [hd']
        unfold Dir.put Dir.unlink
        cases s.ahead <;> simp
      rw [prune_of_le hrest]
      have hput := @Dir.names_put d (coreName a) (by rw [hdnames]; exact hleft _ hcore)
        s.ahead
      rw [hdnames] at hput
      simpa [Dir.names, coreOf, hon, hwrites] using hput
    · rw [hdnames]
      simp [coreOf, hwrites]
  have hlast : (handle cfg names (a, s)).Perm
      (reportName a :: ((coreOf cfg (a, s)).toList ++ names₀.diff gone)) := by
    have hput := @Dir.names_put e (reportName a)
      (fun hc => (List.mem_append.mp (henames.mem_iff.mp hc)).elim
        (fun hm => hne (hcoreOf _ hm)) (hleft _ hreport)) false
    unfold handle
    dsimp only
    rw [if_pos hon, ← hdef, ← hd, ← he]
    exact hput.trans (henames.cons _)
  refine ⟨gone, hlen.trans (by rw [hfiles.length_eq]), hsub.trans hfiles.subperm,
    fun g hg n hn => hold hnodup g hg n (hfiles.mem_iff.mpr hn), hlast.nodup_iff.mpr ?_,
    hlast.trans (((hperm.diff_right gone).append_left _).cons _)⟩
  refine List.nodup_cons.mpr ⟨fun hc => (List.mem_append.mp hc).elim
    (fun hm => hne (hcoreOf _ hm)) (hleft _ hreport), List.Nodup.append ?_ ?_ ?_⟩
  · cases coreOf cfg (a, s) <;> simp
  · exact (hperm.nodup_iff.mpr h.nodup).diff
  · exact fun n hn hm => hleft _ (hcoreOf n hn ▸ hcore) hm

/-- Removing files of one kind removes as many of that kind as there are, and none of another. -/
theorem files_diff {suffix : Text} {gone : List Text}
    (hsub : gone.Subperm (files suffix names)) :
    (files suffix (names.diff gone)).length = (files suffix names).length - gone.length ∧
      ∀ other, (∀ n, listed suffix n = true → listed other n = false) →
        (files other (names.diff gone)).Perm (files other names) := by
  have hmem : ∀ g ∈ gone, listed suffix g = true := fun g hg =>
    (List.mem_filter.mp (hsub.subset hg)).2
  have hperm : (gone ++ names.diff gone).Perm names :=
    List.subperm_append_diff_self_of_count_le fun x _ =>
      (hsub.trans (List.filter_sublist).subperm).count_le x
  refine ⟨?_, fun other ho => ?_⟩
  · have := (hperm.filter (listed suffix)).length_eq
    rw [List.filter_append, List.length_append, List.filter_eq_self.mpr hmem] at this
    change _ + (files suffix (names.diff gone)).length = (files suffix names).length at this
    omega
  · have hnone : gone.filter (listed other) = [] :=
      List.filter_eq_nil_iff.mpr fun g hg => by simp [ho g (hmem g hg)]
    have := hperm.filter (listed other)
    rwa [List.filter_append, hnone, List.nil_append] at this

theorem take_le_take {p q : Text} (h : p ≤ q) (k : ℕ) : p.take k ≤ q.take k := by
  induction k generalizing p q with
  | zero => simp
  | succ k ih =>
    cases p with
    | nil => simp
    | cons b p =>
      cases q with
      | nil => exact absurd (List.le_nil.mp h) (by simp)
      | cons c q =>
        rw [List.take_succ_cons, List.take_succ_cons]
        rcases List.cons_le_cons_iff.mp h with hlt | ⟨heq, hle⟩
        · exact List.cons_le_cons_iff.mpr (Or.inl hlt)
        · exact List.cons_le_cons_iff.mpr (Or.inr ⟨heq, ih hle⟩)

/-- Names are in the order of their TIME. -/
theorem Stamped.timeOf_le (h : Stamped names t) {n k : Text} {suffix : Text}
    (hs : suffix = ofString ".crash" ∨ suffix = ofString ".core") (hn : n ∈ files suffix names)
    (hk : k ∈ files suffix names) (hle : n ≤ k) : timeOf n ≤ timeOf k := by
  obtain ⟨hn, hnl⟩ := List.mem_filter.mp hn
  obtain ⟨hk, hkl⟩ := List.mem_filter.mp hk
  obtain ⟨hn1, hn2, -⟩ := h.stamp n hn (by rcases hs with rfl | rfl <;> simp [hnl])
  obtain ⟨hk1, -, -⟩ := h.stamp k hk (by rcases hs with rfl | rfl <;> simp [hkl])
  exact value_le_of_le (hn1.trans hk1.symm) hn2 (take_le_take hle 10)

/-- There is room for the core that the run writes. -/
def Room (cfg : Config) (names : List Text) (run : Args × System) : Prop :=
  handles cfg run.1 = true → writesCore cfg run.1 run.2 = true →
    (files (ofString ".core") names).length < cfg.maxCores

instance (cfg : Config) (names : List Text) (run : Args × System) :
    Decidable (Room cfg names run) :=
  inferInstanceAs (Decidable (_ → _ → _))

/-- What holds of the spool between two runs. -/
structure Kept (cfg : Config) (names : List Text) (t : ℕ) : Prop where
  stamped : Stamped names t
  reports : (files (ofString ".crash") names).length ≤ cfg.maxReports
  cores : (files (ofString ".core") names).length ≤ cfg.maxCores

theorem retained_refl {suffix : Text} {max : ℕ} (h : (files suffix names).length ≤ max) :
    Retained suffix max names none names where
  count := by simp [h]
  subset n hn := Or.inl hn
  newest n hn hnot := absurd (hn.elim (fun h => (List.mem_filter.mp h).1) (by simp)) hnot
  written n hn := by simp at hn

theorem coreOf_eq {n : Text} (h : n ∈ coreOf cfg (a, s)) :
    n = coreName a ∧ handles cfg a = true ∧ writesCore cfg a s = true := by
  unfold coreOf at h
  split_ifs at h with hc
  · exact ⟨(Option.mem_some_iff.mp h).symm, by simpa using hc⟩
  · simp at h

/-- Which reports and which cores there are after a run that handles a crash. -/
theorem files_handle (h : Stamped names t) (hmax : 1 ≤ cfg.maxCores) (ht : t ≤ a.when)
    (hw : a.when < 10 ^ 10) (hon : handles cfg a = true) : ∃ gone : List Text,
      gone.length = (files (ofString ".crash") names).length - (cfg.maxReports - 1) ∧
      (∀ g ∈ gone, ∀ n ∈ files (ofString ".crash") names, n ∉ gone → g ≤ n) ∧
      gone.Subperm (files (ofString ".crash") names) ∧
      (handle cfg names (a, s)).Perm
        (reportName a :: ((coreOf cfg (a, s)).toList ++ names.diff gone)) ∧
      (files (ofString ".crash") (handle cfg names (a, s))).Perm
        (reportName a :: files (ofString ".crash") (names.diff gone)) ∧
      (files (ofString ".core") (handle cfg names (a, s))).Perm
        ((coreOf cfg (a, s)).toList ++ files (ofString ".core") names) := by
  obtain ⟨gone, hlen, hsub, hold, -, hperm⟩ := handle_spec (s := s) h hmax ht hw hon
  refine ⟨gone, hlen, hold, hsub, hperm, ?_, ?_⟩
  · have hreport : listed (ofString ".crash") (reportName a) = true :=
      (name_spec a hw _ (by decide)).1
    have hcore : (coreOf cfg (a, s)).toList.filter (listed (ofString ".crash")) = [] := by
      refine List.filter_eq_nil_iff.mpr fun n hn => ?_
      obtain ⟨rfl, -⟩ := coreOf_eq (by simpa using hn)
      have hc := (name_spec a hw (ofString ".core") (by decide)).1
      intro hr
      rw [show coreName a = base a ++ ofString ".core" from rfl] at hr
      exact absurd (not_listed_both hr) (by simp [hc])
    have := hperm.filter (listed (ofString ".crash"))
    rwa [List.filter_cons_of_pos hreport, List.filter_append, hcore, List.nil_append] at this
  · have hreport : listed (ofString ".core") (reportName a) = false :=
      not_listed_both (name_spec a hw (ofString ".crash") (by decide)).1
    have hcore : (coreOf cfg (a, s)).toList.filter (listed (ofString ".core")) =
        (coreOf cfg (a, s)).toList := by
      refine List.filter_eq_self.mpr fun n hn => ?_
      obtain ⟨rfl, -⟩ := coreOf_eq (by simpa using hn)
      exact (name_spec a hw (ofString ".core") (by decide)).1
    have := hperm.filter (listed (ofString ".core"))
    rw [List.filter_cons_of_neg (by simp [hreport]), List.filter_append, hcore] at this
    exact this.trans (((files_diff hsub).2 _ fun n => not_listed_both).append_left _)

theorem retained_reports (h : Kept cfg names t) (h1 : 1 ≤ cfg.maxReports) (h2 : 1 ≤ cfg.maxCores)
    (ht : t ≤ a.when) (hw : a.when < 10 ^ 10) : Retained (ofString ".crash") cfg.maxReports names
      (reportOf cfg (a, s)) (handle cfg names (a, s)) := by
  by_cases hon : handles cfg a = true
  · obtain ⟨gone, hlen, hold, hsub, hperm, hfiles, -⟩ :=
      files_handle (s := s) h.stamped h2 ht hw hon
    have hwritten : reportOf cfg (a, s) = some (reportName a) := if_pos hon
    have hdiff := (files_diff hsub).1
    have htime := (name_spec a hw (ofString ".crash") (by decide)).2.1
    have hle := h.reports
    rw [hwritten]
    refine ⟨?_, fun n hn => ?_, fun n hn hnot k hk => ?_, fun n hn => ?_⟩
    · rw [hfiles.length_eq, List.length_cons, hdiff, Option.toList_some, List.length_singleton]
      change _ = min _ _
      omega
    · rcases List.mem_cons.mp (hfiles.mem_iff.mp hn) with rfl | hn
      · exact Or.inr rfl
      · obtain ⟨hn, hl⟩ := List.mem_filter.mp hn
        exact Or.inl (List.mem_filter.mpr ⟨List.diff_subset _ _ hn, hl⟩)
    · have hgone : n ∈ gone ∧ n ∈ files (ofString ".crash") names := by
        have hbefore : n ∈ files (ofString ".crash") names := hn.resolve_right fun he => by
          obtain rfl := Option.mem_some_iff.mp he
          exact hnot (hperm.mem_iff.mpr List.mem_cons_self)
        refine ⟨?_, hbefore⟩
        by_contra hng
        refine hnot (hperm.mem_iff.mpr (List.mem_cons_of_mem _ (List.mem_append_right _ ?_)))
        exact List.mem_diff_of_mem (List.mem_filter.mp hbefore).1 hng
      rcases List.mem_cons.mp (hfiles.mem_iff.mp hk) with rfl | hk
      · rw [show timeOf (reportName a) = a.when from htime]
        obtain ⟨hmem, hl⟩ := List.mem_filter.mp hgone.2
        have := (h.stamped.stamp n hmem (Or.inl hl)).2.2
        omega
      · obtain ⟨hk, hl⟩ := List.mem_filter.mp hk
        have hkb : k ∈ files (ofString ".crash") names :=
          List.mem_filter.mpr ⟨List.diff_subset _ _ hk, hl⟩
        refine h.stamped.timeOf_le (Or.inl rfl) hgone.2 hkb (hold n hgone.1 k hkb fun hkg => ?_)
        exact (h.stamped.nodup.mem_sdiff_iff.mp hk).2 hkg
    · obtain rfl := Option.mem_some_iff.mp hn
      exact hfiles.mem_iff.mpr List.mem_cons_self
  · rw [show reportOf cfg (a, s) = none from if_neg hon,
      show handle cfg names (a, s) = names from if_neg hon]
    exact retained_refl h.reports

theorem retained_cores (h : Kept cfg names t) (h2 : 1 ≤ cfg.maxCores) (ht : t ≤ a.when)
    (hw : a.when < 10 ^ 10) (hroom : Room cfg names (a, s)) :
    Retained (ofString ".core") cfg.maxCores names (coreOf cfg (a, s))
      (handle cfg names (a, s)) := by
  by_cases hon : handles cfg a = true
  · obtain ⟨gone, -, -, -, -, -, hfiles⟩ := files_handle (s := s) h.stamped h2 ht hw hon
    have hle := h.cores
    refine ⟨?_, fun n hn => ?_, fun n hn hnot => ?_, fun n hn => ?_⟩
    · rw [hfiles.length_eq, List.length_append]
      have hcount : (coreOf cfg (a, s)).toList.length +
          (files (ofString ".core") names).length ≤ cfg.maxCores := by
        cases hc : coreOf cfg (a, s) with
        | none => simpa using hle
        | some n =>
          have := hroom hon (coreOf_eq (n := n) (by simp [hc])).2.2
          simp only [Option.toList_some, List.length_singleton]
          omega
      change _ = min _ _
      omega
    · rcases List.mem_append.mp (hfiles.mem_iff.mp hn) with hn | hn
      · exact Or.inr (by simpa using hn)
      · exact Or.inl hn
    · refine absurd ?_ hnot
      exact (List.mem_filter.mp (hfiles.mem_iff.mpr (List.mem_append.mpr
        (hn.symm.imp_left fun hn => by simpa using hn)))).1
    · exact hfiles.mem_iff.mpr (List.mem_append_left _ (by simpa using hn))
  · rw [show coreOf cfg (a, s) = none by simp [coreOf, hon],
      show handle cfg names (a, s) = names from if_neg hon]
    exact retained_refl h.cores

/-! ### Runs -/

theorem kept_nil (cfg : Config) (t : ℕ) : Kept cfg [] t :=
  ⟨⟨List.nodup_nil, by simp⟩, Nat.zero_le _, Nat.zero_le _⟩

theorem stamped_handle (h : Stamped names t) (h2 : 1 ≤ cfg.maxCores) (ht : t ≤ a.when)
    (hw : a.when < 10 ^ 10) : Stamped (handle cfg names (a, s)) (a.when + 1) := by
  by_cases hon : handles cfg a = true
  · obtain ⟨gone, -, -, -, hnodup, hperm⟩ := handle_spec (s := s) h h2 ht hw hon
    have hfile : ∀ suffix : Text, suffix.length < 64 → ∀ n, n = base a ++ suffix →
        (n.take 10).length = 10 ∧ (∀ b ∈ n.take 10, isDigit b = true) ∧ timeOf n < a.when + 1 := by
      rintro suffix hs n rfl
      obtain ⟨-, htime, htake⟩ := name_spec a hw suffix hs
      obtain ⟨hlen, hdigits, -⟩ := padded_spec 10 (by omega) hw
      rw [htake]
      exact ⟨hlen, hdigits, by omega⟩
    refine ⟨hnodup, fun n hn hl => ?_⟩
    rcases List.mem_cons.mp (hperm.mem_iff.mp hn) with hn | hn
    · exact hfile _ (by decide) n hn
    · rcases List.mem_append.mp hn with hn | hn
      · exact hfile _ (by decide) n (coreOf_eq (by simpa using hn)).1
      · obtain ⟨h1, h2, h3⟩ := h.stamp n (List.diff_subset _ _ hn) hl
        exact ⟨h1, h2, by omega⟩
  · rw [show handle cfg names (a, s) = names from if_neg hon]
    refine ⟨h.nodup, fun n hn hl => ?_⟩
    obtain ⟨h1, h2, h3⟩ := h.stamp n hn hl
    exact ⟨h1, h2, by omega⟩

theorem kept_handle (h : Kept cfg names t) (h1 : 1 ≤ cfg.maxReports) (h2 : 1 ≤ cfg.maxCores)
    (ht : t ≤ a.when) (hw : a.when < 10 ^ 10) (hroom : Room cfg names (a, s)) :
    Kept cfg (handle cfg names (a, s)) (a.when + 1) where
  stamped := stamped_handle h.stamped h2 ht hw
  reports := (retained_reports h h1 h2 ht hw).count ▸ Nat.min_le_left _ _
  cores := (retained_cores h h2 ht hw hroom).count ▸ Nat.min_le_left _ _

theorem kept_run (h1 : 1 ≤ cfg.maxReports) (h2 : 1 ≤ cfg.maxCores) (runs : List (Args × System)) :
    ∀ (names : List Text) (t : ℕ), Kept cfg names t →
      (runs.map fun r => r.1.when).Pairwise (· < ·) →
      (∀ r ∈ runs, t ≤ r.1.when ∧ r.1.when < 10 ^ 10) →
      Transition.Guarded (handle cfg) (Room cfg) names runs →
      ∃ t', Kept cfg (Transition.run (handle cfg) names runs) t' ∧
        ∀ w, t ≤ w → (∀ r ∈ runs, r.1.when < w) → t' ≤ w := by
  induction runs with
  | nil => exact fun names t h _ _ _ => ⟨t, h, fun w hw _ => hw⟩
  | cons r runs ih =>
    intro names t h hinc hten hroom
    obtain ⟨hlt, hinc⟩ := List.pairwise_cons.mp hinc
    obtain ⟨ht, hw⟩ := hten r List.mem_cons_self
    have hnext : ∀ q ∈ runs, r.1.when + 1 ≤ q.1.when ∧ q.1.when < 10 ^ 10 := fun q hq =>
      ⟨hlt _ (List.mem_map_of_mem hq), (hten q (List.mem_cons_of_mem _ hq)).2⟩
    obtain ⟨t', h', hle⟩ := ih _ _ (kept_handle (s := r.2) h h1 h2 ht hw hroom.1) hinc hnext hroom.2
    exact ⟨t', h', fun w _ hall => hle w (hall r List.mem_cons_self)
      fun q hq => hall q (List.mem_cons_of_mem _ hq)⟩

/-- **Retention**, after each run of every sequence of runs with increasing TIME arguments, if there
is room for every core before it is written. -/
theorem run_retained (h1 : 1 ≤ cfg.maxReports) (h2 : 1 ≤ cfg.maxCores) (hstart : Kept cfg names t)
    (runs : List (Args × System)) (hinc : (runs.map fun r => r.1.when).Pairwise (· < ·))
    (hten : ∀ r ∈ runs, t ≤ r.1.when ∧ r.1.when < 10 ^ 10)
    (hroom : Transition.Guarded (handle cfg) (Room cfg) names runs) :
    ∀ earlier r later, runs = earlier ++ r :: later →
      let spool := Transition.run (handle cfg) names earlier
      Retained (ofString ".crash") cfg.maxReports spool (reportOf cfg r) (handle cfg spool r) ∧
        Retained (ofString ".core") cfg.maxCores spool (coreOf cfg r) (handle cfg spool r) := by
  rintro earlier r later rfl
  rw [List.map_append, List.pairwise_append] at hinc
  obtain ⟨hinc, -, hlt⟩ := hinc
  obtain ⟨hroom, hlast⟩ := (Transition.guarded_append _ _ _).mp hroom
  obtain ⟨t', h, hle⟩ := kept_run h1 h2 earlier names t hstart hinc
    (fun q hq => hten q (List.mem_append_left _ hq)) hroom
  obtain ⟨ht, hw⟩ := hten r (List.mem_append_right _ List.mem_cons_self)
  have ht' : t' ≤ r.1.when := hle _ ht fun q hq =>
    hlt _ (List.mem_map_of_mem hq) _ (List.mem_map_of_mem List.mem_cons_self)
  exact ⟨retained_reports (s := r.2) h h1 h2 ht' hw, retained_cores (s := r.2) h h2 ht' hw hlast.1⟩

/-- Two reports and as many cores as given. -/
def Config.small (maxCores : ℕ) : Config := ⟨true, 0, true, 1, 2, maxCores⟩

/-- A crash of the process 42, with a core of eight bytes. -/
def Args.crash (when : ℕ) : Args × System := (⟨42, by decide, 1000, when, 1⟩, ⟨[], 8, false, true⟩)

/-- Three crashes with room for their cores; the oldest report goes. -/
theorem run_retained_three :
    let spool := Transition.run (handle (.small 3)) []
      [Args.crash 1000000000, Args.crash 1000000001]
    Retained (ofString ".crash") 2 spool (reportOf (.small 3) (Args.crash 1000000002))
        (handle (.small 3) spool (Args.crash 1000000002)) ∧
      Retained (ofString ".core") 3 spool (coreOf (.small 3) (Args.crash 1000000002))
        (handle (.small 3) spool (Args.crash 1000000002)) :=
  run_retained (by decide) (by decide) (kept_nil (.small 3) 0)
    [Args.crash 1000000000, Args.crash 1000000001, Args.crash 1000000002] (by decide) (by decide)
    (by decide) [Args.crash 1000000000, Args.crash 1000000001] (Args.crash 1000000002) [] rfl

/-- The second core makes one more than there may be. -/
theorem not_retained_of_cores : ¬∀ (cfg : Config) (names : List Text) (t : ℕ)
    (runs : List (Args × System)), 1 ≤ cfg.maxReports → 1 ≤ cfg.maxCores → Kept cfg names t →
      (runs.map fun r => r.1.when).Pairwise (· < ·) →
      (∀ r ∈ runs, t ≤ r.1.when ∧ r.1.when < 10 ^ 10) →
      ∀ earlier r later, runs = earlier ++ r :: later →
        let spool := Transition.run (handle cfg) names earlier
        Retained (ofString ".crash") cfg.maxReports spool (reportOf cfg r) (handle cfg spool r) ∧
          Retained (ofString ".core") cfg.maxCores spool (coreOf cfg r) (handle cfg spool r) := by
  intro h
  have hcount := (h (.small 1) [] 0 [Args.crash 1000000000, Args.crash 1000000001] (by decide)
    (by decide) (kept_nil _ 0) (by decide) (by decide) [Args.crash 1000000000]
    (Args.crash 1000000001) [] rfl).2.count
  exact absurd hcount (by decide)

end Crash

end SingularityShell
