import Mathlib.Data.List.Nodup
import SingularityShell.Crash.Report
import SingularityShell.Lib.Lists
import SingularityShell.Lib.Machine
import SingularityShell.Lib.Transition

/-!
# `CoredumpctlSource`: crashes from the journal

The journal is asked for crashes again and again, and a mark is kept in order to tell the new ones
from those that were reported before. The mark is a number of microseconds, and it is moved to the
second in which a reported crash was.

## Main definitions

* `Crash.Entry`, `Crash.parseCoredumpctlJson` — the crashes that are taken from a listing
* `Crash.CoredumpctlSource.step` — the timers and the query
* `Crash.CoredumpctlSource.Reported` — each crash is reported once, by the first query that can
* `Crash.CoredumpctlSource.Clean` — the mark separates the new crashes from the old ones

## Main results

* `Crash.CoredumpctlSource.Inv.finish` — the step lemma for the end of a query
* `Crash.CoredumpctlSource.reported_of_clean` — the runs in which each crash is reported once
-/

namespace SingularityShell

namespace Crash

open Ascii

/-! ### A listing -/

/-- An object of the array that `coredumpctl` prints. A text that is not there or `null` is none. -/
structure Entry where
  time : ℕ
  pid : Option ℤ := none
  uid : Option ℤ := none
  sig : Option ℤ := none
  exe : Option Text := none
  corefile : Option Text := none
  deriving DecidableEq

/-- The other properties of `Report` that the parser sets. -/
structure CoredumpctlReport extends Report where
  timestamp : ℕ
  uid : ℤ
  signalNumber : ℤ
  corePath : Text
  deriving DecidableEq

/-- The report that the parser fills. -/
def Entry.report (e : Entry) : CoredumpctlReport where
  source := .coredumpctl
  timestamp := e.time / 1000000
  pid := (e.pid.map Machine.wrap32).getD 0
  uid := (e.uid.map Machine.wrap32).getD (-1)
  signalNumber := (e.sig.map Machine.wrap32).getD 0
  executable := e.exe.getD []
  corePath :=
    if e.corefile = some (ofString "present") then
      ofString "coredumpctl:" ++ signed ((e.pid.map Machine.wrap32).getD 0)
    else []

/-- The entry is one of another user. -/
def Entry.foreign (uid : ℤ) (e : Entry) : Bool := 0 ≤ uid && e.uid.any fun u => u ≠ uid

/-- The entry is kept, new or not. -/
def Entry.Kept (uid : ℤ) (e : Entry) : Prop :=
  e.foreign uid = false ∧ 0 < e.report.pid ∧ e.report.executable ≠ []

instance (uid : ℤ) (e : Entry) : Decidable (e.Kept uid) :=
  inferInstanceAs (Decidable (e.foreign uid = false ∧ 0 < e.report.pid ∧ e.report.executable ≠ []))

/-- `SourceSelection.parse_coredumpctl_json`, with the place of each entry in the journal. -/
def parseCoredumpctlJson (array : List (Entry × ℕ)) (uid : ℤ) (sinceUsec : ℕ) :
    List (CoredumpctlReport × ℕ) :=
  array.filterMap fun node =>
    if node.1.time ≤ sinceUsec then none
    else if node.1.foreign uid then none
    else if 0 < node.1.report.pid ∧ node.1.report.executable ≠ [] then
      some (node.1.report, node.2)
    else none

theorem parseCoredumpctlJson_eq (array : List (Entry × ℕ)) (uid : ℤ) (sinceUsec : ℕ) :
    parseCoredumpctlJson array uid sinceUsec =
      (array.filter fun node => sinceUsec < node.1.time ∧ node.1.Kept uid).map fun node =>
        (node.1.report, node.2) := by
  induction array with
  | nil => rfl
  | cons node array ih =>
    rw [parseCoredumpctlJson] at ih ⊢
    rw [List.filterMap_cons, ih, List.filter_cons]
    by_cases hnew : sinceUsec < node.1.time
    · rw [if_neg (not_le.2 hnew)]
      by_cases hforeign : node.1.foreign uid
      · have hkept : ¬node.1.Kept uid := fun h => by simp [h.1] at hforeign
        rw [if_pos hforeign, if_neg (by simp [hkept])]
      · by_cases hreport : 0 < node.1.report.pid ∧ node.1.report.executable ≠ []
        · have hkept : node.1.Kept uid := ⟨by simpa using hforeign, hreport⟩
          rw [if_neg hforeign, if_pos hreport, if_pos (by simp [hnew, hkept]), List.map_cons]
        · have hkept : ¬node.1.Kept uid := fun h => hreport h.2
          rw [if_neg hforeign, if_neg hreport, if_neg (by simp [hkept])]
    · rw [if_pos (not_lt.1 hnew), if_neg (by simp [hnew])]

/-! ### The source -/

/-- What is there when the source is created: the user, the time, and the entries so far. -/
structure CoredumpctlSource where
  user : ℕ
  created : ℕ
  old : List Entry
  before : ∀ e ∈ old, e.time ≤ created

namespace CoredumpctlSource

/-- `current_uid` -/
def currentUid (source : CoredumpctlSource) : ℤ := Machine.wrap32 source.user

/-- A query that runs: the second it asks from, and the journal as `coredumpctl` has read it. -/
structure Query where
  since : ℕ
  read : Option (List Entry) := none
  deriving DecidableEq

/-- A report of a query, and the place in the journal that it comes from. -/
structure Crashed where
  query : ℕ
  place : ℕ
  report : CoredumpctlReport
  deriving DecidableEq

/-- The journal, the mark and the reports. -/
structure Ledger where
  journal : List Entry
  sinceUsec : ℕ
  crashed : List Crashed := []
  /-- How much of the journal each query that has ended had read. -/
  listings : List ℕ := []

structure State extends Ledger where
  /-- Whether `query_id` is set. -/
  scheduled : Bool := false
  querying : Option Query := none

inductive Event where
  /-- A crash is recorded. -/
  | record (e : Entry)
  /-- The directory has changed, or the poll timer has expired. -/
  | schedule
  /-- The timer of `schedule_query` has expired. -/
  | expire
  /-- `coredumpctl` reads the journal. -/
  | list
  /-- `coredumpctl` has ended. -/
  | finish
  deriving DecidableEq

def start (source : CoredumpctlSource) : State :=
  { journal := source.old, sinceUsec := source.created }

/-- The entries at or after a second, with their places. -/
def coredumpctl (since : ℕ) (journal : List Entry) : List (Entry × ℕ) :=
  journal.zipIdx.filter fun node => since * 1000000 ≤ node.1.time

/-- The mark, after the reports. -/
def mark (sinceUsec : ℕ) (reports : List (CoredumpctlReport × ℕ)) : ℕ :=
  reports.foldl (fun since report =>
    if since < report.1.timestamp * 1000000 then report.1.timestamp * 1000000 else since) sinceUsec

/-- The end of `query`. -/
def deliver (source : CoredumpctlSource) (l : Ledger) (since : ℕ) (read : List Entry) : Ledger :=
  let reports := parseCoredumpctlJson (coredumpctl since read) source.currentUid l.sinceUsec
  { l with
    sinceUsec := mark l.sinceUsec reports
    crashed := l.crashed ++ reports.map fun report => ⟨l.listings.length, report.2, report.1⟩
    listings := l.listings ++ [read.length] }

/-- A query that runs makes the next one return. -/
def query (s : State) : State :=
  match s.querying with
  | some _ => s
  | none => { s with querying := some { since := s.sinceUsec / 1000000 } }

def step (source : CoredumpctlSource) (s : State) : Event → State
  | .record e => { s with journal := s.journal ++ [e] }
  | .schedule => { s with scheduled := true }
  | .expire => query { s with scheduled := false }
  | .list =>
    match s.querying with
    | some q => { s with querying := some { q with read := some s.journal } }
    | none => s
  | .finish =>
    match s.querying with
    | some ⟨since, some read⟩ =>
      { s with toLedger := deliver source s.toLedger since read, querying := none }
    | _ => s

/-- What can happen: entries are recorded in the order of their times, timers expire that are set,
and `coredumpctl` reads once and then ends. -/
def May (source : CoredumpctlSource) (s : State) : Event → Prop
  | .record e => source.created ≤ e.time ∧ ∀ e' ∈ s.journal, e'.time ≤ e.time
  | .schedule => True
  | .expire => s.scheduled
  | .list => ∃ q ∈ s.querying, q.read = none
  | .finish => ∃ q ∈ s.querying, q.read ≠ none

instance (source : CoredumpctlSource) (s : State) : ∀ e, Decidable (May source s e)
  | .record e => inferInstanceAs (Decidable (source.created ≤ e.time ∧
      ∀ e' ∈ s.journal, e'.time ≤ e.time))
  | .schedule => inferInstanceAs (Decidable True)
  | .expire => inferInstanceAs (Decidable (s.scheduled = true))
  | .list => inferInstanceAs (Decidable (∃ q ∈ s.querying, q.read = none))
  | .finish => inferInstanceAs (Decidable (∃ q ∈ s.querying, q.read ≠ none))

/-! ### What should be reported -/

/-- The query is the first one that has read the entry at a place. -/
def First (listings : List ℕ) (q i : ℕ) : Prop :=
  (∃ n ∈ listings[q]?, i < n) ∧ ∀ q' < q, ∀ n ∈ listings[q']?, n ≤ i

/-- The entry is one of the user, with a process and an executable. -/
def Own (source : CoredumpctlSource) (e : Entry) : Prop :=
  e.uid = some (source.user : ℤ) ∧ (∃ pid ∈ e.pid, 0 < pid ∧ pid < 2 ^ 31) ∧
    ∃ exe ∈ e.exe, exe ≠ []

/-- Each crash is reported once, by the first query that reads it. -/
structure Reported (source : CoredumpctlSource) (l : Ledger) : Prop where
  once : (l.crashed.map Crashed.place).Nodup
  first : ∀ i e, source.old.length ≤ i → l.journal[i]? = some e → source.Own e →
    ∀ q, First l.listings q i → ⟨q, i, e.report⟩ ∈ l.crashed
  new : ∀ c ∈ l.crashed, source.old.length ≤ c.place ∧
    ∃ e, l.journal[c.place]? = some e ∧ c.report = e.report ∧ ∀ uid ∈ e.uid, uid = source.user

/-! ### When the mark is right -/

/-- How much of the journal was read. -/
def seen (source : CoredumpctlSource) (l : Ledger) : ℕ := l.listings.getLastD source.old.length

/-- The times of the entries that are kept. -/
def times (source : CoredumpctlSource) (entries : List Entry) : List ℕ :=
  (entries.filter fun e => e.Kept source.currentUid).map Entry.time

/-- The time of the newest entry that was recorded since the start, read and kept, or the start. -/
def newest (source : CoredumpctlSource) (l : Ledger) : ℕ :=
  (source.times ((l.journal.take (source.seen l)).drop source.old.length)).foldl max source.created

/-- The newest entry that was read and kept is from a whole second, and no entry that is to be kept
was recorded later at the same time. -/
def Clean (source : CoredumpctlSource) (l : Ledger) : Prop :=
  (source.newest l = source.created ∨ 1000000 ∣ source.newest l) ∧
    ∀ e ∈ l.journal.drop (source.seen l), e.Kept source.currentUid → e.time ≠ source.newest l

instance (source : CoredumpctlSource) (l : Ledger) : Decidable (Clean source l) :=
  inferInstanceAs (Decidable (_ ∧ _))

/-! ### The invariant -/

/-- The start of the second of a time. -/
def second (time : ℕ) : ℕ := time / 1000000 * 1000000

theorem mark_eq (sinceUsec : ℕ) (reports : List (CoredumpctlReport × ℕ)) :
    mark sinceUsec reports =
      (reports.map fun report => report.1.timestamp * 1000000).foldl max sinceUsec := by
  rw [mark, List.foldl_map]
  congr 1
  funext since report
  split
  · exact (max_eq_right (by omega)).symm
  · exact (max_eq_left (by omega)).symm

theorem First.append_iff {listings : List ℕ} {n q i : ℕ} :
    First (listings ++ [n]) q i ↔
      First listings q i ∨ q = listings.length ∧ i < n ∧ ∀ m ∈ listings, m ≤ i := by
  have hbefore : ∀ {k}, k < listings.length → (listings ++ [n])[k]? = listings[k]? :=
    fun hk => List.getElem?_append_left hk
  have hlast : (listings ++ [n])[listings.length]? = some n := by simp
  constructor
  · rintro ⟨⟨m, hm, hi⟩, hle⟩
    rcases Nat.lt_or_ge q listings.length with hq | hq
    · refine Or.inl ⟨⟨m, by rwa [hbefore hq] at hm, hi⟩, fun k hk m hm => ?_⟩
      exact hle k hk m (by rwa [hbefore (hk.trans hq)])
    · have hlt := (List.getElem?_eq_some_iff.1 (Option.mem_def.1 hm)).1
      rw [List.length_append, List.length_singleton] at hlt
      obtain rfl : q = listings.length := by omega
      rw [hlast, Option.mem_some_iff] at hm
      refine Or.inr ⟨rfl, hm ▸ hi, fun m hm => ?_⟩
      obtain ⟨k, hk, rfl⟩ := List.mem_iff_getElem.1 hm
      exact hle k hk _ (by rw [hbefore hk, List.getElem?_eq_getElem hk, Option.mem_some_iff])
  · rintro (⟨⟨m, hm, hi⟩, hle⟩ | ⟨rfl, hi, hle⟩)
    · have hq := (List.getElem?_eq_some_iff.1 (Option.mem_def.1 hm)).1
      refine ⟨⟨m, by rwa [hbefore hq], hi⟩, fun k hk m hm => ?_⟩
      exact hle k hk m (by rwa [hbefore (hk.trans hq)] at hm)
    · refine ⟨⟨n, by rw [hlast, Option.mem_some_iff], hi⟩, fun k hk m hm => ?_⟩
      rw [hbefore hk] at hm
      exact hle m (List.mem_of_getElem? (Option.mem_def.1 hm))

structure Inv (source : CoredumpctlSource) (l : Ledger) : Prop where
  before : ∀ i e, i < source.old.length → l.journal[i]? = some e → e.time ≤ source.created
  later : ∀ i e, source.old.length ≤ i → l.journal[i]? = some e → source.created ≤ e.time
  ordered : ∀ i j e e', source.old.length ≤ i → i < j → l.journal[i]? = some e →
    l.journal[j]? = some e' → e.time ≤ e'.time
  bounds : source.old.length ≤ source.seen l ∧ source.seen l ≤ l.journal.length
  listings : ∀ n ∈ l.listings, n ≤ source.seen l
  marked : l.sinceUsec = ((source.times ((l.journal.take (source.seen l)).drop
    source.old.length)).map second).foldl max source.created
  crashed : ∀ c, c ∈ l.crashed ↔ First l.listings c.query c.place ∧ source.old.length ≤ c.place ∧
    ∃ e, l.journal[c.place]? = some e ∧ e.Kept source.currentUid ∧ c.report = e.report
  nodup : (l.crashed.map Crashed.place).Nodup

/-- What is known of a query that runs. -/
structure Asks (source : CoredumpctlSource) (l : Ledger) (q : Query) : Prop where
  since : q.since = l.sinceUsec / 1000000
  read : ∀ read ∈ q.read, source.seen l ≤ read.length ∧ read <+: l.journal ∧
    (source.newest l = source.created ∨ 1000000 ∣ source.newest l) ∧
      ∀ e ∈ read.drop (source.seen l), e.Kept source.currentUid → e.time ≠ source.newest l

section
variable {source : CoredumpctlSource} {l : Ledger}

theorem mem_times {time n : ℕ} {journal : List Entry} :
    time ∈ source.times ((journal.take n).drop source.old.length) ↔
      ∃ i e, source.old.length ≤ i ∧ i < n ∧ journal[i]? = some e ∧ e.Kept source.currentUid ∧
        e.time = time := by
  simp only [times, List.mem_map, List.mem_filter, decide_eq_true_eq]
  constructor
  · rintro ⟨e, ⟨he, hkept⟩, rfl⟩
    obtain ⟨k, hk⟩ := List.mem_iff_getElem?.1 he
    rw [List.getElem?_drop, List.getElem?_take] at hk
    split at hk
    next hlt => exact ⟨source.old.length + k, e, by omega, hlt, hk, hkept, rfl⟩
    next => cases hk
  · rintro ⟨i, e, hold, hlt, he, hkept, rfl⟩
    refine ⟨e, ⟨List.mem_iff_getElem?.2 ⟨i - source.old.length, ?_⟩, hkept⟩, rfl⟩
    rw [List.getElem?_drop, Nat.add_sub_cancel' hold, List.getElem?_take, if_pos hlt, he]

theorem Inv.seen_le_iff (h : Inv source l) {i : ℕ} :
    source.seen l ≤ i ↔ source.old.length ≤ i ∧ ∀ n ∈ l.listings, n ≤ i := by
  constructor
  · exact fun hi => ⟨h.bounds.1.trans hi, fun n hn => (h.listings n hn).trans hi⟩
  · rintro ⟨hold, hle⟩
    rcases List.mem_cons.1 (List.getLastD_mem_cons (l := l.listings) (a := source.old.length)) with
      heq | hmem
    · rw [seen, heq]
      exact hold
    · exact hle _ hmem

theorem Inv.lt_seen (h : Inv source l) {q i : ℕ} (hfirst : First l.listings q i) :
    i < source.seen l := by
  obtain ⟨⟨n, hn, hi⟩, -⟩ := hfirst
  exact hi.trans_le (h.listings n (List.mem_of_getElem? (Option.mem_def.1 hn)))

theorem Inv.newest_le (h : Inv source l) {i : ℕ} {e : Entry} (hi : source.seen l ≤ i)
    (he : l.journal[i]? = some e) : source.newest l ≤ e.time := by
  rcases List.mem_cons.1 (Lists.foldl_max_spec source.created _).2 with heq | hmem
  · rw [newest, heq]
    exact h.later i e (h.bounds.1.trans hi) he
  · obtain ⟨k, e', hold, hk, he', -, htime⟩ := mem_times.1 hmem
    rw [newest, ← htime]
    exact h.ordered k i e' e hold (hk.trans_le hi) he' he

/-- The mark is in the second of the newest entry. -/
theorem Inv.mark_le (h : Inv source l) : l.sinceUsec ≤ source.newest l := by
  rw [h.marked]
  obtain ⟨hle, -⟩ := Lists.foldl_max_spec source.created
    (source.times ((l.journal.take (source.seen l)).drop source.old.length))
  rcases List.mem_cons.1 (Lists.foldl_max_spec source.created ((source.times
    ((l.journal.take (source.seen l)).drop source.old.length)).map second)).2 with heq | hmem
  · rw [heq]
    exact hle _ List.mem_cons_self
  · obtain ⟨time, htime, heq⟩ := List.mem_map.1 hmem
    rw [← heq]
    exact (Nat.div_mul_le_self time 1000000).trans (hle time (List.mem_cons_of_mem _ htime))

/-- From a whole second on, the mark is the time of the newest entry. -/
theorem Inv.newest_le_mark (h : Inv source l)
    (hwhole : source.newest l = source.created ∨ 1000000 ∣ source.newest l) :
    source.newest l ≤ l.sinceUsec := by
  rw [h.marked]
  obtain ⟨hle, -⟩ := Lists.foldl_max_spec source.created ((source.times
    ((l.journal.take (source.seen l)).drop source.old.length)).map second)
  have hcreated := hle _ List.mem_cons_self
  rcases hwhole with heq | hdvd
  · rw [heq]
    exact hcreated
  · rcases List.mem_cons.1 (Lists.foldl_max_spec source.created (source.times
      ((l.journal.take (source.seen l)).drop source.old.length))).2 with heq | hmem
    · rw [newest, heq]
      exact hcreated
    · refine hle _ (List.mem_cons_of_mem _ (List.mem_map.2 ⟨_, hmem, ?_⟩))
      exact Nat.div_mul_cancel hdvd

/-- Of the entries that are kept, those that were not read before are the ones after the mark. -/
theorem Inv.isNew_iff (h : Inv source l) {q : Query} (hq : Asks source l q) {read : List Entry}
    (hread : read ∈ q.read) {i : ℕ} {e : Entry} (he : read[i]? = some e)
    (hkept : e.Kept source.currentUid) : l.sinceUsec < e.time ↔ source.seen l ≤ i := by
  obtain ⟨-, hprefix, hwhole, hclean⟩ := hq.read read hread
  have hjournal : l.journal[i]? = some e := by
    obtain ⟨rest, hrest⟩ := hprefix
    rw [← hrest, List.getElem?_append_left (List.getElem?_eq_some_iff.1 he).1, he]
  constructor
  · intro hlt
    by_contra hseen
    have hmark := h.newest_le_mark hwhole
    obtain ⟨hle, -⟩ := Lists.foldl_max_spec source.created
      (source.times ((l.journal.take (source.seen l)).drop source.old.length))
    rcases Nat.lt_or_ge i source.old.length with hold | hold
    · have hcreated := hle _ List.mem_cons_self
      have := h.before i e hold hjournal
      rw [newest] at hmark
      omega
    · have htime := hle e.time (List.mem_cons_of_mem _
        (mem_times.2 ⟨i, e, hold, not_le.1 hseen, hjournal, hkept, rfl⟩))
      rw [newest] at hmark
      omega
  · intro hseen
    have hne := hclean e (List.mem_iff_getElem?.2 ⟨i - source.seen l, by
      rw [List.getElem?_drop, Nat.add_sub_cancel' hseen, he]⟩) hkept
    have hle := h.newest_le hseen hjournal
    have := h.mark_le
    omega

/-- The entries to be kept that were not read before, with their places. -/
def fresh (source : CoredumpctlSource) (l : Ledger) (read : List Entry) : List (Entry × ℕ) :=
  ((read.drop (source.seen l)).zipIdx (source.seen l)).filter fun node =>
    node.1.Kept source.currentUid

theorem mem_fresh {read : List Entry} {node : Entry × ℕ} :
    node ∈ source.fresh l read ↔ source.seen l ≤ node.2 ∧ read[node.2]? = some node.1 ∧
      node.1.Kept source.currentUid := by
  rw [fresh, List.mem_filter, List.mem_zipIdx_iff_le_and_getElem?_sub, List.getElem?_drop,
    decide_eq_true_eq, and_assoc]
  refine and_congr_right fun hle => ?_
  rw [Nat.add_sub_cancel' hle]

theorem nodup_fresh (read : List Entry) : ((source.fresh l read).map Prod.snd).Nodup := by
  refine List.Nodup.sublist (List.filter_sublist.map Prod.snd) ?_
  rw [List.zipIdx_map_snd]
  exact List.nodup_range'

/-- What a query delivers: the entries to be kept that were not read before. -/
theorem Inv.reports_eq (h : Inv source l) {q : Query} (hq : Asks source l q) {read : List Entry}
    (hread : read ∈ q.read) :
    parseCoredumpctlJson (coredumpctl q.since read) source.currentUid l.sinceUsec =
      (source.fresh l read).map fun node => (node.1.report, node.2) := by
  have hlength : (read.take (source.seen l)).length = source.seen l := by
    rw [List.length_take]
    exact min_eq_left (hq.read read hread).1
  have hzip : read.zipIdx = (read.take (source.seen l)).zipIdx ++
      (read.drop (source.seen l)).zipIdx (source.seen l) := by
    conv_lhs => rw [← List.take_append_drop (source.seen l) read]
    rw [List.zipIdx_append, hlength, Nat.zero_add]
  -- what is at the mark is in its second
  have hnode : ∀ node ∈ read.zipIdx, (decide (q.since * 1000000 ≤ node.1.time) &&
      decide (l.sinceUsec < node.1.time ∧ node.1.Kept source.currentUid)) =
        decide (source.seen l ≤ node.2 ∧ node.1.Kept source.currentUid) := by
    intro node hmem
    have he := List.mem_zipIdx_iff_getElem?.1 hmem
    have hsince : q.since * 1000000 ≤ l.sinceUsec := by
      rw [hq.since]
      exact Nat.div_mul_le_self _ _
    by_cases hkept : node.1.Kept source.currentUid
    · have hiff := h.isNew_iff hq hread he hkept
      rw [Bool.eq_iff_iff, Bool.and_eq_true, decide_eq_true_eq, decide_eq_true_eq,
        decide_eq_true_eq, ← hiff]
      exact ⟨fun hlt => hlt.2, fun hlt => ⟨hsince.trans hlt.1.le, hlt⟩⟩
    · simp [hkept]
  have hold : (read.take (source.seen l)).zipIdx.filter (fun node =>
      decide (source.seen l ≤ node.2 ∧ node.1.Kept source.currentUid)) = [] := by
    refine List.filter_eq_nil_iff.2 fun node hmem => ?_
    have := List.snd_lt_of_mem_zipIdx hmem
    simp only [decide_eq_true_eq]
    omega
  have hnew : ((read.drop (source.seen l)).zipIdx (source.seen l)).filter (fun node =>
      decide (source.seen l ≤ node.2 ∧ node.1.Kept source.currentUid)) =
        source.fresh l read := by
    refine List.filter_congr fun node hmem => ?_
    have := (List.mem_zipIdx_iff_le_and_getElem?_sub.1 hmem).1
    simp [this]
  rw [parseCoredumpctlJson_eq, coredumpctl, List.filter_filter]
  rw [List.filter_congr (fun node hmem => (Bool.and_comm _ _).trans (hnode node hmem)), hzip,
    List.filter_append, hold, List.nil_append, hnew]

/-- The times of the entries that were read are those of the old ones, and of the new ones. -/
theorem times_read {read : List Entry} (hold : source.old.length ≤ source.seen l)
    (hlength : source.seen l ≤ read.length) :
    source.times (read.drop source.old.length) =
      source.times ((read.take (source.seen l)).drop source.old.length) ++
        (source.fresh l read).map fun node => node.1.time := by
  have hsplit : read.drop source.old.length =
      (read.take (source.seen l)).drop source.old.length ++ read.drop (source.seen l) := by
    conv_lhs => rw [← List.take_append_drop (source.seen l) read]
    rw [List.drop_append_of_le_length]
    rw [List.length_take]
    exact le_min hold (hold.trans hlength)
  have hnew : (source.fresh l read).map Prod.fst =
      (read.drop (source.seen l)).filter fun e => e.Kept source.currentUid := by
    calc (source.fresh l read).map Prod.fst
        = (((read.drop (source.seen l)).zipIdx (source.seen l)).map Prod.fst).filter fun e =>
            e.Kept source.currentUid := by
          rw [List.filter_map, Function.comp_def, fresh]
      _ = _ := by rw [List.zipIdx_map_fst]
  rw [hsplit, times, List.filter_append, List.map_append, ← hnew, List.map_map, times]
  rfl

theorem Inv.deliver (h : Inv source l) {q : Query} (hq : Asks source l q) {read : List Entry}
    (hread : read ∈ q.read) : Inv source (deliver source l q.since read) := by
  obtain ⟨hle, hprefix, -⟩ := hq.read read hread
  have hseen : source.seen (CoredumpctlSource.deliver source l q.since read) = read.length := by
    rw [CoredumpctlSource.seen, CoredumpctlSource.deliver, List.getLastD_concat]
  have hreports := h.reports_eq hq hread
  have htake : ∀ n ≤ read.length, l.journal.take n = read.take n := by
    obtain ⟨rest, hrest⟩ := hprefix
    intro n hn
    rw [← hrest, List.take_append_of_le_length hn]
  have hget : ∀ i < read.length, l.journal[i]? = read[i]? := by
    obtain ⟨rest, hrest⟩ := hprefix
    intro i hi
    rw [← hrest, List.getElem?_append_left hi]
  refine
    { before := h.before
      later := h.later
      ordered := h.ordered
      bounds := ?_
      listings := ?_
      marked := ?_
      crashed := ?_
      nodup := ?_ }
  · rw [hseen]
    exact ⟨h.bounds.1.trans hle, hprefix.length_le⟩
  · rw [hseen]
    intro n hn
    rcases List.mem_append.1 hn with hn | hn
    · exact (h.listings n hn).trans hle
    · rw [List.mem_singleton.1 hn]
  · have hmark : (CoredumpctlSource.deliver source l q.since read).sinceUsec =
        CoredumpctlSource.mark l.sinceUsec
          ((source.fresh l read).map fun node => (node.1.report, node.2)) := by
      rw [← hreports]
      rfl
    have hjournal : (CoredumpctlSource.deliver source l q.since read).journal = l.journal := rfl
    rw [hmark, mark_eq, hseen, hjournal, htake _ le_rfl, List.take_length,
      times_read h.bounds.1 hle, ← htake _ hle, List.map_append, List.foldl_append, ← h.marked,
      List.map_map, List.map_map]
    rfl
  · intro c
    have hcrashed : (CoredumpctlSource.deliver source l q.since read).crashed = l.crashed ++
        (source.fresh l read).map fun node => ⟨l.listings.length, node.2, node.1.report⟩ := by
      rw [CoredumpctlSource.deliver]
      dsimp only
      rw [hreports, List.map_map]
      rfl
    have hlistings : (CoredumpctlSource.deliver source l q.since read).listings =
        l.listings ++ [read.length] := rfl
    rw [hcrashed, hlistings, List.mem_append, h.crashed, First.append_iff, or_and_right]
    refine or_congr Iff.rfl ?_
    rw [List.mem_map]
    constructor
    · rintro ⟨node, hnode, rfl⟩
      obtain ⟨hnew, he, hkept⟩ := mem_fresh.1 hnode
      have hlt := (List.getElem?_eq_some_iff.1 he).1
      obtain ⟨hold, hlistings⟩ := h.seen_le_iff.1 hnew
      exact ⟨⟨rfl, hlt, hlistings⟩, hold, node.1, (hget _ hlt).trans he, hkept, rfl⟩
    · rintro ⟨⟨hquery, hlt, hlistings⟩, hold, e, he, hkept, hreport⟩
      refine ⟨(e, c.place), mem_fresh.2 ⟨h.seen_le_iff.2 ⟨hold, hlistings⟩, ?_, hkept⟩, ?_⟩
      · rw [← hget _ hlt]
        exact he
      · rw [← hquery, ← hreport]
  · have hplaces : (CoredumpctlSource.deliver source l q.since read).crashed.map Crashed.place =
        l.crashed.map Crashed.place ++ (source.fresh l read).map Prod.snd := by
      rw [CoredumpctlSource.deliver]
      dsimp only
      rw [hreports, List.map_append, List.map_map, List.map_map]
      rfl
    rw [hplaces, List.nodup_append]
    refine ⟨h.nodup, nodup_fresh read, ?_⟩
    intro i hi j hj heq
    obtain ⟨c, hc, rfl⟩ := List.mem_map.1 hi
    obtain ⟨node, hnode, rfl⟩ := List.mem_map.1 hj
    have hlt := h.lt_seen ((h.crashed c).1 hc).1
    have hle := (mem_fresh.1 hnode).1
    omega

/-- What is read of the journal stays, when an entry is recorded. -/
theorem Inv.newest_record (h : Inv source l) (e : Entry) :
    source.newest { l with journal := l.journal ++ [e] } = source.newest l := by
  have htake : (l.journal ++ [e]).take (source.seen l) = l.journal.take (source.seen l) :=
    List.take_append_of_le_length h.bounds.2
  show (source.times (((l.journal ++ [e]).take (source.seen l)).drop _)).foldl max _ = _
  rw [htake]
  rfl

theorem Inv.record (h : Inv source l) {e : Entry} (hcreated : source.created ≤ e.time)
    (hlast : ∀ e' ∈ l.journal, e'.time ≤ e.time) :
    Inv source { l with journal := l.journal ++ [e] } := by
  have hget : ∀ {i e'}, (l.journal ++ [e])[i]? = some e' →
      l.journal[i]? = some e' ∨ i = l.journal.length ∧ e' = e := by
    intro i e' he'
    rw [List.getElem?_append] at he'
    split at he'
    next => exact Or.inl he'
    next hi =>
      obtain ⟨hlt, heq⟩ := List.getElem?_eq_some_iff.1 he'
      rw [List.length_singleton] at hlt
      exact Or.inr ⟨by omega, by rw [← heq, List.getElem_singleton]⟩
  have hold : ∀ {i}, i < source.seen l → (l.journal ++ [e])[i]? = l.journal[i]? :=
    fun hi => List.getElem?_append_left (hi.trans_le h.bounds.2)
  refine
    { before := ?_
      later := ?_
      ordered := ?_
      bounds := ?_
      listings := h.listings
      marked := ?_
      crashed := ?_
      nodup := h.nodup }
  · intro i e' hi he'
    rcases hget he' with he' | ⟨hlength, -⟩
    · exact h.before i e' hi he'
    · have := h.bounds
      omega
  · intro i e' hi he'
    rcases hget he' with he' | ⟨-, rfl⟩
    · exact h.later i e' hi he'
    · exact hcreated
  · intro i j e₁ e₂ hi hij he₁ he₂
    rcases hget he₁ with hfirst | ⟨hlength, -⟩
    · rcases hget he₂ with hsecond | ⟨-, rfl⟩
      · exact h.ordered i j e₁ e₂ hi hij hfirst hsecond
      · exact hlast e₁ (List.mem_of_getElem? hfirst)
    · have hlt := (List.getElem?_eq_some_iff.1 he₂).1
      rw [List.length_append, List.length_singleton] at hlt
      omega
  · refine ⟨h.bounds.1, h.bounds.2.trans ?_⟩
    rw [List.length_append]
    omega
  · show l.sinceUsec = ((source.times (((l.journal ++ [e]).take (source.seen l)).drop
      source.old.length)).map second).foldl max source.created
    rw [List.take_append_of_le_length h.bounds.2]
    exact h.marked
  · intro c
    rw [h.crashed c]
    refine and_congr_right fun hfirst => ?_
    rw [hold (h.lt_seen hfirst)]

theorem Asks.record (h : Inv source l) {q : Query} (hq : Asks source l q) (e : Entry) :
    Asks source { l with journal := l.journal ++ [e] } q where
  since := hq.since
  read := by
    intro read hread
    obtain ⟨hle, hprefix, hwhole, hclean⟩ := hq.read read hread
    rw [h.newest_record]
    exact ⟨hle, hprefix.trans (List.prefix_append _ _), hwhole, hclean⟩

theorem Inv.start : Inv source source.start.toLedger where
  before i e _ he := source.before e (List.mem_of_getElem? he)
  later i e hi he := absurd (List.getElem?_eq_some_iff.1 he).1 (not_lt.2 hi)
  ordered i j e e' hi _ he := absurd (List.getElem?_eq_some_iff.1 he).1 (not_lt.2 hi)
  bounds := ⟨le_rfl, le_rfl⟩
  listings := by
    intro n hn
    cases hn
  marked := by
    show source.created = ((source.times ((source.old.take source.old.length).drop
      source.old.length)).map second).foldl max source.created
    rw [List.take_length, List.drop_length]
    rfl
  crashed := by
    intro c
    refine ⟨fun hc => (List.not_mem_nil hc).elim, ?_⟩
    rintro ⟨⟨⟨n, hn, -⟩, -⟩, -⟩
    cases hn
  nodup := List.nodup_nil

/-! ### Runs -/

/-- A step that can happen, where `coredumpctl` reads the journal only when the mark is right. -/
def CleanStep (source : CoredumpctlSource) (s : State) (e : Event) : Prop :=
  May source s e ∧ (e = .list → Clean source s.toLedger)

instance (source : CoredumpctlSource) (s : State) (e : Event) : Decidable (CleanStep source s e) :=
  inferInstanceAs (Decidable (_ ∧ _))

/-- **The step lemma.** -/
theorem inv_step {s : State} {e : Event}
    (h : Inv source s.toLedger ∧ ∀ q ∈ s.querying, Asks source s.toLedger q)
    (hstep : source.CleanStep s e) :
    Inv source (source.step s e).toLedger ∧
      ∀ q ∈ (source.step s e).querying, Asks source (source.step s e).toLedger q := by
  obtain ⟨hinv, hasks⟩ := h
  obtain ⟨hmay, hclean⟩ := hstep
  cases e with
  | record e =>
    obtain ⟨hcreated, hlast⟩ := hmay
    exact ⟨hinv.record hcreated hlast, fun q hq => (hasks q hq).record hinv e⟩
  | schedule => exact ⟨hinv, hasks⟩
  | expire =>
    rw [step, query]
    split
    next => exact ⟨hinv, hasks⟩
    next =>
      refine ⟨hinv, ?_⟩
      rintro q ⟨⟩
      exact ⟨rfl, fun read hread => by cases hread⟩
  | list =>
    obtain ⟨q, hq, hnone⟩ := hmay
    have hasks := hasks q hq
    rw [step, hq]
    refine ⟨hinv, ?_⟩
    rintro q' ⟨⟩
    refine ⟨hasks.since, ?_⟩
    rintro read ⟨⟩
    obtain ⟨hwhole, hnew⟩ := hclean rfl
    exact ⟨hinv.bounds.2, List.prefix_refl _, hwhole, hnew⟩
  | finish =>
    obtain ⟨⟨since, _ | read⟩, hq, hsome⟩ := hmay
    · exact absurd rfl hsome
    · have hasks := hasks _ hq
      rw [step, hq]
      exact ⟨hinv.deliver hasks rfl, fun q hq => by cases hq⟩

theorem Own.kept (huser : source.user < 2 ^ 31) {e : Entry} (h : source.Own e) :
    e.Kept source.currentUid := by
  obtain ⟨huid, ⟨pid, hpid, hpos, hlt⟩, exe, hexe, hne⟩ := h
  have hcurrent : source.currentUid = source.user :=
    Machine.wrap32_eq (by omega) (by omega)
  refine ⟨?_, ?_, ?_⟩
  · rw [Entry.foreign, huid, hcurrent]
    simp
  · rw [Entry.report, Option.mem_def.1 hpid]
    show 0 < Machine.wrap32 pid
    rwa [Machine.wrap32_eq (by omega) (by omega)]
  · rw [Entry.report, Option.mem_def.1 hexe]
    exact hne

theorem Inv.reported (huser : source.user < 2 ^ 31) (h : Inv source l) : Reported source l where
  once := h.nodup
  first i e hold he hown q hfirst :=
    (h.crashed ⟨q, i, e.report⟩).2 ⟨hfirst, hold, e, he, hown.kept huser, rfl⟩
  new c hc := by
    obtain ⟨-, hold, e, he, hkept, hreport⟩ := (h.crashed c).1 hc
    have hcurrent : source.currentUid = source.user :=
      Machine.wrap32_eq (by omega) (by omega)
    refine ⟨hold, e, he, hreport, fun uid huid => ?_⟩
    have hforeign := hkept.1
    rw [Entry.foreign, hcurrent, Option.mem_def.1 huid] at hforeign
    simpa using hforeign

/-- **Each crash is reported once.** Whenever `coredumpctl` reads the journal, let the newest entry
that was read and kept be from a whole second, and let no entry that is to be kept have been
recorded later at its time. Then every crash of the user is reported by the first query that reads
it, and by no other. -/
theorem reported_of_clean (source : CoredumpctlSource) (huser : source.user < 2 ^ 31)
    (events : List Event)
    (h : Transition.Guarded source.step source.CleanStep source.start events) :
    ∀ events', events' <+: events →
      Reported source (Transition.run source.step source.start events').toLedger := by
  rintro events' ⟨rest, rfl⟩
  refine Inv.reported huser (Transition.Guarded.invariant (fun s e => inv_step) ?_
    ((Transition.guarded_append _ _ _).1 h).1).1
  exact ⟨.start, fun q hq => by cases hq⟩

end

/-! ### A crash within a second -/

/-- A source of the user 1000, created at the beginning of a second. -/
def aSource : CoredumpctlSource where
  user := 1000
  created := 1790000000000000
  old := []
  before := by
    intro e he
    cases he

/-- A crash at a time within a second. -/
def crashy : Entry where
  time := 1790000001500000
  pid := some 10
  uid := some 1000
  sig := some 11
  exe := some (ofString "/usr/bin/crashy")
  corefile := some (ofString "present")

/-- The crash at the beginning of the second. -/
def crashyThen : Entry := { crashy with time := 1790000001000000 }

/-- A crash is recorded, and there are two queries. -/
def twoQueries (e : Entry) : List Event :=
  [.record e, .schedule, .expire, .list, .finish, .schedule, .expire, .list, .finish]

/-- Both queries report the crash. -/
theorem not_reported_crashy : Transition.Guarded aSource.step aSource.May aSource.start
      (twoQueries crashy) ∧
    ¬Reported aSource (Transition.run aSource.step aSource.start (twoQueries crashy)).toLedger := by
  refine ⟨by decide, fun h => ?_⟩
  exact absurd h.once (by decide)

/-- One query reports the crash at the beginning of the second. -/
theorem reported_of_clean_crashyThen : Reported aSource
    (Transition.run aSource.step aSource.start (twoQueries crashyThen)).toLedger :=
  reported_of_clean aSource (by decide) (twoQueries crashyThen) (by decide) _ (List.prefix_refl _)

end CoredumpctlSource

end Crash

end SingularityShell
