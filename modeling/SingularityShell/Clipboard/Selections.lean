import Mathlib.Data.List.Nodup
import Mathlib.Data.Nat.Notation
import SingularityShell.Lib.Ascii
import SingularityShell.Lib.Lists
import SingularityShell.Lib.Transition

/-!
# The selections that are watched

Each selection is read over a pipe of its own, chunk by chunk, and handed on when its read ends. The
reads of several selections run at the same time, and nothing keeps them in the order of the
selections.

## Main definitions

* `Clipboard.Selections.State` — the reads that run, and what was handed on
* `Clipboard.Selections.Contract` — what is handed on, and in which order
* `Clipboard.Selections.InTurn` — a read that ends before those of later selections

## Main results

* `Clipboard.Selections.exact_step` — what is handed on is what was delivered
* `Clipboard.Selections.contract_iff` — the order is kept exactly when the reads end in turn
-/

namespace SingularityShell

namespace Clipboard

namespace Selections

open Ascii

/-- `MAX_TEXT` -/
def maxText : ℕ := 4 * 1024 * 1024

/-- `MAX_IMAGE` -/
def maxImage : ℕ := 24 * 1024 * 1024

/-- `has_mime` -/
def hasMime (mimes : List Text) (mime : Text) : Bool := mimes.any (· = mime)

/-- The types of images that `pick_mime` knows. -/
def images : List Text := ["image/png", "image/jpeg", "image/bmp"].map ofString

/-- The types of texts that `pick_mime` knows. -/
def texts : List Text :=
  ["text/plain;charset=utf-8", "UTF8_STRING", "text/plain", "STRING", "TEXT"].map ofString

/-- `pick_mime` -/
def pickMime (mimes : List Text) : Option Text :=
  match texts.find? (hasMime mimes) with
  | some text =>
    some ((images.find? fun image =>
      hasMime mimes image && !hasMime mimes (ofString "text/uri-list")).getD text)
  | none => images.find? (hasMime mimes)

/-- The limit of a read. -/
def limitOf (mime : Text) : ℕ := if (ofString "image/").isPrefixOf mime then maxImage else maxText

/-- A read, with the number of its selection. -/
structure ReadJob where
  selection : ℕ
  mime : Text
  buf : Text := []
  limit : ℕ

/-- A call of the callback. The data is none for a selection that is marked as a secret. -/
structure Call where
  selection : ℕ
  mime : Text
  data : Option Text

structure State where
  /-- The number of the selections so far. -/
  selections : ℕ := 0
  jobs : List ReadJob := []
  calls : List Call := []
  /-- What the pipe of each selection has delivered while it was read. -/
  delivered : ℕ → Text := fun _ => []
  /-- The selections whose reads reached the end of the data. -/
  ended : List ℕ := []
  /-- The selections that are marked as secrets. -/
  secrets : List ℕ := []

/-- `device_selection` for an offer, where `pipe2` succeeds or not. -/
def deviceSelection (mimes : List Text) (pipe : Bool) (s : State) : State :=
  let selection := s.selections
  let s := { s with selections := selection + 1 }
  let hint := ofString "x-kde-passwordManagerHint"
  if hasMime mimes hint then
    { s with
      calls := s.calls ++ [⟨selection, hint, none⟩]
      secrets := s.secrets ++ [selection] }
  else
    match pickMime mimes with
    | none => s
    | some mime =>
      if pipe then { s with jobs := s.jobs ++ [{ selection, mime, limit := limitOf mime }] } else s

/-- A read is over. -/
def removeJob (selection : ℕ) (s : State) : State :=
  { s with jobs := s.jobs.filter (·.selection ≠ selection) }

/-- The end of the data. -/
def onEnd (job : ReadJob) (s : State) : State :=
  let s := removeJob job.selection { s with ended := s.ended ++ [job.selection] }
  if job.buf ≠ [] then { s with calls := s.calls ++ [⟨job.selection, job.mime, some job.buf⟩] }
  else s

/-- A chunk of data. -/
def onChunk (job : ReadJob) (chunk : Text) (s : State) : State :=
  let s := { s with
    delivered := Function.update s.delivered job.selection (s.delivered job.selection ++ chunk) }
  if job.limit < job.buf.length + chunk.length then removeJob job.selection s
  else
    { s with
      jobs := s.jobs.map fun j =>
        if j.selection = job.selection then { j with buf := j.buf ++ chunk } else j }

/-- `on_read`: the read failed, or it got a chunk, which is empty at the end of the data. -/
def onRead (selection : ℕ) (result : Option Text) (s : State) : State :=
  match s.jobs.find? (·.selection = selection) with
  | none => s
  | some job =>
    match result with
    | none => removeJob selection s
    | some chunk => if chunk = [] then onEnd job s else onChunk job chunk s

inductive Event where
  /-- An offer becomes the selection, or there is none any more. -/
  | selection (offer : Option (List Text)) (pipe : Bool)
  | read (selection : ℕ) (result : Option Text)

def step (s : State) : Event → State
  | .selection (some mimes) pipe => deviceSelection mimes pipe s
  | .selection none _ => s
  | .read selection result => onRead selection result s

/-- The state after the events. -/
def run (events : List Event) : State := Transition.run step {} events

/-! ### The property -/

/-- The calls that give data to the history. -/
def State.given (s : State) : List Call := s.calls.filter (·.data.isSome)

/-- The callback is called for the selections in their order, at most once each, with the bytes that
were delivered when the read ended, which are within the limit, and once no read runs the newest
entry is that of the last selection that delivered data. -/
structure Contract (s : State) : Prop where
  order : (s.calls.map (·.selection)).Pairwise (· < ·)
  exactly : ∀ selection, (∃ call ∈ s.given, call.selection = selection) ↔
    selection ∈ s.ended ∧ s.delivered selection ≠ []
  bytes : ∀ call ∈ s.given, call.data = some (s.delivered call.selection) ∧
    (s.delivered call.selection).length ≤ limitOf call.mime
  newest : s.jobs = [] → ∀ call, s.given.getLast? = some call →
    ∀ selection ∈ s.ended, s.delivered selection ≠ [] → selection ≤ call.selection

/-- The selection is settled: it is marked as a secret, or its read ended with some data. -/
def Settled (s : State) (selection : ℕ) : Prop :=
  selection ∈ s.secrets ∨ selection ∈ s.ended ∧ s.delivered selection ≠ []

/-- A read ends with some data only when no later selection is settled. -/
def InTurn (s : State) : Event → Prop
  | .read selection result => result = some [] → (∃ job ∈ s.jobs, job.selection = selection) →
    s.delivered selection ≠ [] → ∀ later, Settled s later → later < selection
  | _ => True

/-! ### What is handed on -/

/-- What the steps keep: each read has what was delivered to it, and the calls are those of the
settled selections. -/
structure Exact (s : State) : Prop where
  fresh : ∀ job ∈ s.jobs, job.selection < s.selections
  nodup : (s.jobs.map (·.selection)).Nodup
  buf : ∀ job ∈ s.jobs, job.buf = s.delivered job.selection ∧ job.buf.length ≤ job.limit ∧
    job.limit = limitOf job.mime
  running : ∀ job ∈ s.jobs, job.selection ∉ s.ended
  ended : ∀ selection ∈ s.ended, selection < s.selections
  secrets : ∀ selection ∈ s.secrets, selection < s.selections
  quiet : ∀ selection, s.selections ≤ selection → s.delivered selection = []
  given : ∀ call ∈ s.given, call.data = some (s.delivered call.selection) ∧
    (s.delivered call.selection).length ≤ limitOf call.mime
  exactly : ∀ selection, (∃ call ∈ s.given, call.selection = selection) ↔
    selection ∈ s.ended ∧ s.delivered selection ≠ []
  called : ∀ selection, selection ∈ s.calls.map (·.selection) ↔ Settled s selection

variable {s : State}

theorem Exact.deviceSelection (h : Exact s) (mimes : List Text) (pipe : Bool) :
    Exact (deviceSelection mimes pipe s) := by
  have hfresh : ∀ job ∈ s.jobs, job.selection < s.selections + 1 := fun job hjob =>
    Nat.lt_succ_of_lt (h.fresh job hjob)
  have hended : ∀ selection ∈ s.ended, selection < s.selections + 1 := fun selection hmem =>
    Nat.lt_succ_of_lt (h.ended selection hmem)
  have hsecrets : ∀ selection ∈ s.secrets, selection < s.selections + 1 := fun selection hmem =>
    Nat.lt_succ_of_lt (h.secrets selection hmem)
  have hquiet : ∀ selection, s.selections + 1 ≤ selection → s.delivered selection = [] :=
    fun selection hle => h.quiet selection (Nat.le_of_succ_le hle)
  have hskip : Exact { s with selections := s.selections + 1 } :=
    ⟨hfresh, h.nodup, h.buf, h.running, hended, hsecrets, hquiet, h.given, h.exactly, h.called⟩
  rw [Selections.deviceSelection]
  dsimp only
  by_cases hhint : hasMime mimes (ofString "x-kde-passwordManagerHint") = true
  · rw [if_pos hhint]
    have hgiven : State.given { s with
        calls := s.calls ++ [⟨s.selections, ofString "x-kde-passwordManagerHint", none⟩] } =
        s.given := by
      rw [State.given, List.filter_append]
      exact List.append_nil _
    refine ⟨hfresh, h.nodup, h.buf, h.running, hended, fun selection hmem => ?_, hquiet, ?_, ?_,
      fun selection => ?_⟩
    · rcases List.mem_append.mp hmem with hold | hnew
      · exact hsecrets selection hold
      · rw [List.mem_singleton.mp hnew]
        exact Nat.lt_succ_self _
    · exact fun call hcall => h.given call (hgiven ▸ hcall)
    · intro selection
      refine Iff.trans ?_ (h.exactly selection)
      exact exists_congr fun call => and_congr_left' (iff_of_eq (congrArg (call ∈ ·) hgiven))
    · show selection ∈ (s.calls ++ [_]).map Call.selection ↔
        selection ∈ s.secrets ++ [s.selections] ∨ _
      rw [List.map_append, List.mem_append, h.called, List.mem_append]
      exact or_right_comm
  · rw [if_neg hhint]
    cases pickMime mimes with
    | none => exact hskip
    | some mime =>
      dsimp only
      by_cases hpipe : pipe = true
      · rw [if_pos hpipe]
        refine ⟨fun job hjob => ?_, ?_, fun job hjob => ?_, fun job hjob => ?_, hended, hsecrets,
          hquiet, h.given, h.exactly, h.called⟩
        · rcases List.mem_append.mp hjob with hold | hnew
          · exact hfresh job hold
          · rw [List.mem_singleton.mp hnew]
            exact Nat.lt_succ_self _
        · show ((s.jobs ++ [_]).map ReadJob.selection).Nodup
          rw [List.map_append]
          refine h.nodup.append (List.nodup_singleton _)
            (List.disjoint_singleton.mpr fun hmem => ?_)
          obtain ⟨job, hjob, he⟩ := List.mem_map.mp hmem
          exact Nat.lt_irrefl _ (he ▸ h.fresh job hjob)
        · rcases List.mem_append.mp hjob with hold | hnew
          · exact h.buf job hold
          · rw [List.mem_singleton.mp hnew]
            exact ⟨(h.quiet _ (Nat.le_refl _)).symm, Nat.zero_le _, rfl⟩
        · rcases List.mem_append.mp hjob with hold | hnew
          · exact h.running job hold
          · rw [List.mem_singleton.mp hnew]
            exact fun hmem => Nat.lt_irrefl _ (h.ended _ hmem)
      · rw [if_neg hpipe]
        exact hskip

/-- A change of the reads and of what is delivered to one that runs. -/
theorem Exact.reads (h : Exact s) {jobs : List ReadJob} {delivered : ℕ → Text} {job : ReadJob}
    (hjob : job ∈ s.jobs) (hsub : (jobs.map (·.selection)).Sublist (s.jobs.map (·.selection)))
    (hother : ∀ selection, selection ≠ job.selection →
      delivered selection = s.delivered selection)
    (hbuf : ∀ job ∈ jobs, job.buf = delivered job.selection ∧ job.buf.length ≤ job.limit ∧
      job.limit = limitOf job.mime) :
    Exact { s with jobs, delivered } := by
  have hmem : ∀ j ∈ jobs, ∃ k ∈ s.jobs, k.selection = j.selection := fun j hj =>
    List.mem_map.mp (hsub.subset (List.mem_map_of_mem hj))
  have hsame : ∀ selection ∈ s.ended, delivered selection = s.delivered selection :=
    fun selection hended => hother selection fun he => h.running job hjob (he ▸ hended)
  have hcall : ∀ call ∈ s.given, delivered call.selection = s.delivered call.selection :=
    fun call hcall => hsame _ ((h.exactly call.selection).mp ⟨call, hcall, rfl⟩).1
  refine ⟨fun j hj => ?_, h.nodup.sublist hsub, hbuf, fun j hj => ?_, h.ended, h.secrets,
    fun selection hle => ?_, fun call hin => ?_, fun selection => ?_, fun selection => ?_⟩
  · obtain ⟨k, hk, he⟩ := hmem j hj
    exact he ▸ h.fresh k hk
  · obtain ⟨k, hk, he⟩ := hmem j hj
    exact he ▸ h.running k hk
  · have hne : selection ≠ job.selection := fun he =>
      Nat.lt_irrefl _ (Nat.lt_of_lt_of_le (h.fresh job hjob) (he ▸ hle))
    exact (hother selection hne).trans (h.quiet selection hle)
  · show call.data = some (delivered call.selection) ∧ (delivered call.selection).length ≤ _
    rw [hcall call hin]
    exact h.given call hin
  · refine (h.exactly selection).trans (and_congr_right fun hended => ?_)
    show _ ↔ delivered selection ≠ []
    rw [hsame selection hended]
  · refine (h.called selection).trans (or_congr_right (and_congr_right fun hended => ?_))
    show _ ↔ delivered selection ≠ []
    rw [hsame selection hended]

theorem Exact.removeJob (h : Exact s) {job : ReadJob} (hjob : job ∈ s.jobs) :
    Exact (removeJob job.selection s) :=
  h.reads hjob (List.filter_sublist.map _) (fun _ _ => rfl) fun j hj =>
    h.buf j (List.mem_of_mem_filter hj)

theorem Exact.onChunk (h : Exact s) {job : ReadJob} (hjob : job ∈ s.jobs) (chunk : Text) :
    Exact (onChunk job chunk s) := by
  have hother : ∀ selection, selection ≠ job.selection → Function.update s.delivered job.selection
      (s.delivered job.selection ++ chunk) selection = s.delivered selection := fun selection hne =>
    Function.update_of_ne hne _ _
  have hrest : ∀ j ∈ s.jobs, j.selection ≠ job.selection → j.buf = Function.update s.delivered
      job.selection (s.delivered job.selection ++ chunk) j.selection ∧ j.buf.length ≤ j.limit ∧
        j.limit = limitOf j.mime := fun j hj hne => by
    rw [hother _ hne]
    exact h.buf j hj
  rw [Selections.onChunk]
  dsimp only
  split_ifs with hlimit
  · refine h.reads hjob (List.filter_sublist.map _) hother fun j hj => ?_
    obtain ⟨hmem, hne⟩ := List.mem_filter.mp hj
    exact hrest j hmem (of_decide_eq_true hne)
  · have hkeep : (s.jobs.map fun j =>
        if j.selection = job.selection then { j with buf := j.buf ++ chunk } else j).map
          ReadJob.selection = s.jobs.map ReadJob.selection := by
      rw [List.map_map]
      refine List.map_congr_left fun j _ => ?_
      show (if j.selection = job.selection then _ else j : ReadJob).selection = j.selection
      split_ifs <;> rfl
    refine h.reads hjob ?_ hother fun j hj => ?_
    · rw [hkeep]
    · obtain ⟨k, hk, rfl⟩ := List.mem_map.mp hj
      by_cases he : k.selection = job.selection
      · rw [if_pos he]
        obtain rfl := List.inj_on_of_nodup_map h.nodup hk hjob he
        obtain ⟨hbuf, -, hmime⟩ := h.buf k hk
        refine ⟨?_, ?_, hmime⟩
        · show k.buf ++ chunk = Function.update s.delivered k.selection _ k.selection
          rw [Function.update_self, hbuf]
        · show (k.buf ++ chunk).length ≤ k.limit
          rw [List.length_append]
          exact Nat.not_lt.mp hlimit
      · rw [if_neg he]
        exact hrest k hk he

theorem Exact.onEnd (h : Exact s) {job : ReadJob} (hjob : job ∈ s.jobs) : Exact (onEnd job s) := by
  obtain ⟨hbuf, hlength, hmime⟩ := h.buf job hjob
  have hfilter : ∀ j ∈ s.jobs.filter (·.selection ≠ job.selection), j ∈ s.jobs ∧
      j.selection ≠ job.selection := fun j hj =>
    ⟨List.mem_of_mem_filter hj, of_decide_eq_true (List.mem_filter.mp hj).2⟩
  have hmem : ∀ selection, selection ∈ s.ended ++ [job.selection] ↔
      selection ∈ s.ended ∨ selection = job.selection := fun selection => by
    rw [List.mem_append, List.mem_singleton]
  have hrunning : ∀ j ∈ s.jobs.filter (·.selection ≠ job.selection),
      j.selection ∉ s.ended ++ [job.selection] := fun j hj hin => by
    rcases (hmem _).mp hin with hold | he
    · exact h.running j (hfilter j hj).1 hold
    · exact (hfilter j hj).2 he
  have hended : ∀ selection ∈ s.ended ++ [job.selection], selection < s.selections :=
    fun selection hin => by
      rcases (hmem _).mp hin with hold | rfl
      · exact h.ended selection hold
      · exact h.fresh job hjob
  have hnodup := h.nodup.sublist ((List.filter_sublist (p := (·.selection ≠ job.selection))).map _)
  rw [Selections.onEnd]
  by_cases hempty : job.buf = []
  · rw [if_neg (not_not.mpr hempty)]
    have hnone : s.delivered job.selection = [] := hbuf.symm.trans hempty
    have hiff : ∀ selection, selection ∈ s.ended ++ [job.selection] ∧ s.delivered selection ≠ [] ↔
        selection ∈ s.ended ∧ s.delivered selection ≠ [] := fun selection =>
      and_congr_left fun hne => (hmem selection).trans (or_iff_left fun he => hne (he ▸ hnone))
    exact ⟨fun j hj => h.fresh j (hfilter j hj).1, hnodup, fun j hj => h.buf j (hfilter j hj).1,
      hrunning, hended, h.secrets, h.quiet, h.given,
      fun selection => (h.exactly selection).trans (hiff selection).symm,
      fun selection => (h.called selection).trans (or_congr_right (hiff selection).symm)⟩
  · rw [if_pos hempty]
    have hsome : s.delivered job.selection ≠ [] := fun he => hempty (hbuf.trans he)
    have hiff : ∀ selection, selection ∈ s.ended ++ [job.selection] ∧ s.delivered selection ≠ [] ↔
        selection ∈ s.ended ∧ s.delivered selection ≠ [] ∨ selection = job.selection :=
      fun selection => by
        rw [hmem, or_and_right]
        exact or_congr_right (and_iff_left_of_imp fun he => he ▸ hsome)
    obtain ⟨last, hlast⟩ : ∃ last : Call, last = ⟨job.selection, job.mime, some job.buf⟩ := ⟨_, rfl⟩
    have hgiven : ∀ call, call ∈ (s.calls ++ [last]).filter (·.data.isSome) ↔
        call ∈ s.given ∨ call = last := fun call => by
      rw [List.filter_append, List.mem_append, List.filter_cons_of_pos (by rw [hlast]; rfl),
        List.filter_nil, List.mem_singleton]
      rfl
    rw [← hlast]
    refine ⟨fun j hj => h.fresh j (hfilter j hj).1, hnodup, fun j hj => h.buf j (hfilter j hj).1,
      hrunning, hended, h.secrets, h.quiet, fun call hcall => ?_, fun selection => ?_,
      fun selection => ?_⟩
    · rcases (hgiven call).mp hcall with hold | rfl
      · exact h.given call hold
      · rw [hlast]
        show some job.buf = some (s.delivered job.selection) ∧
          (s.delivered job.selection).length ≤ limitOf job.mime
        rw [← hbuf]
        exact ⟨rfl, hmime ▸ hlength⟩
    · refine Iff.trans ?_ (hiff selection).symm
      constructor
      · rintro ⟨call, hcall, rfl⟩
        rcases (hgiven call).mp hcall with hold | rfl
        · exact Or.inl ((h.exactly _).mp ⟨call, hold, rfl⟩)
        · exact Or.inr (by rw [hlast])
      · rintro (hold | rfl)
        · obtain ⟨call, hcall, he⟩ := (h.exactly selection).mpr hold
          exact ⟨call, (hgiven call).mpr (Or.inl hcall), he⟩
        · exact ⟨last, (hgiven last).mpr (Or.inr rfl), by rw [hlast]⟩
    · show selection ∈ (s.calls ++ [last]).map Call.selection ↔ selection ∈ s.secrets ∨ _
      rw [List.map_append, List.mem_append, h.called, hlast]
      refine Iff.trans ?_ (or_congr_right (hiff selection).symm)
      rw [← or_assoc]
      exact or_congr_right List.mem_singleton

/-- **What is handed on is what was delivered.** -/
theorem exact_step (h : Exact s) (e : Event) : Exact (step s e) := by
  cases e with
  | selection offer pipe =>
    cases offer with
    | none => exact h
    | some mimes => exact h.deviceSelection mimes pipe
  | read selection result =>
    rw [step, onRead]
    cases hfind : s.jobs.find? (·.selection = selection) with
    | none => exact h
    | some job =>
      obtain ⟨hjob, rfl⟩ := Lists.of_find? hfind
      cases result with
      | none => exact h.removeJob hjob
      | some chunk =>
        dsimp only
        split_ifs
        · exact h.onEnd hjob
        · exact h.onChunk hjob chunk

/-! ### The order -/

/-- The calls are in the order of the selections. -/
def Ordered (s : State) : Prop := (s.calls.map (·.selection)).Pairwise (· < ·)

theorem ordered_concat {s' : State} {call : Call} (hcalls : s'.calls = s.calls ++ [call])
    (h : Ordered s) : Ordered s' ↔ ∀ selection ∈ s.calls.map (·.selection),
      selection < call.selection := by
  rw [Ordered, hcalls, List.map_append, List.pairwise_append]
  constructor
  · exact fun hboth selection hmem => hboth.2.2 selection hmem _ List.mem_cons_self
  · refine fun hall => ⟨h, List.pairwise_singleton _ _, fun selection hmem other hother => ?_⟩
    rw [List.mem_singleton.mp hother]
    exact hall selection hmem

/-- **A step keeps the order exactly when a read that ends is in turn.** -/
theorem ordered_step (h : Exact s) (horder : Ordered s) (e : Event) :
    Ordered (step s e) ↔ InTurn s e := by
  cases e with
  | selection offer pipe =>
    refine iff_of_true ?_ trivial
    cases offer with
    | none => exact horder
    | some mimes =>
      rw [step, Selections.deviceSelection]
      dsimp only
      by_cases hhint : hasMime mimes (ofString "x-kde-passwordManagerHint") = true
      · rw [if_pos hhint]
        refine (ordered_concat rfl horder).mpr fun selection hmem => ?_
        rcases (h.called selection).mp hmem with hsecret | hended
        · exact h.secrets selection hsecret
        · exact h.ended selection hended.1
      · rw [if_neg hhint]
        cases pickMime mimes with
        | none => exact horder
        | some mime =>
          dsimp only
          split_ifs
          · exact horder
          · exact horder
  | read selection result =>
    rw [step, onRead, InTurn]
    cases hfind : s.jobs.find? (·.selection = selection) with
    | none =>
      refine iff_of_true horder fun _ hjob => ?_
      obtain ⟨job, hmem, he⟩ := hjob
      exact absurd (decide_eq_true he) (List.find?_eq_none.mp hfind job hmem)
    | some job =>
      obtain ⟨hjob, rfl⟩ := Lists.of_find? hfind
      cases result with
      | none => exact iff_of_true horder nofun
      | some chunk =>
        dsimp only
        by_cases hend : chunk = []
        · rw [if_pos hend, onEnd, hend]
          by_cases hempty : job.buf = []
          · rw [if_neg (not_not.mpr hempty)]
            refine iff_of_true horder fun _ _ hne => absurd ?_ hne
            exact (h.buf job hjob).1.symm.trans hempty
          · rw [if_pos hempty]
            refine (ordered_concat rfl horder).trans ?_
            constructor
            · exact fun hall _ _ _ later hlater => hall later ((h.called later).mpr hlater)
            · intro hturn later hlater
              refine hturn rfl ⟨job, hjob, rfl⟩ (fun he => hempty ?_) later
                ((h.called later).mp hlater)
              exact (h.buf job hjob).1.trans he
        · rw [if_neg hend, onChunk]
          refine iff_of_true ?_ fun he => absurd (Option.some.inj he) hend
          dsimp only
          split_ifs
          · exact horder
          · exact horder

theorem exact_init : Exact {} :=
  ⟨List.forall_mem_nil _, List.nodup_nil, List.forall_mem_nil _, List.forall_mem_nil _,
    List.forall_mem_nil _, List.forall_mem_nil _, fun _ _ => rfl, List.forall_mem_nil _,
    fun _ => iff_of_false (fun ⟨_, h, _⟩ => absurd h List.not_mem_nil)
      fun h => absurd h.1 List.not_mem_nil,
    fun _ => iff_of_false List.not_mem_nil fun h =>
      h.elim (fun h => absurd h List.not_mem_nil) fun h => absurd h.1 List.not_mem_nil⟩

theorem contract_iff_ordered (h : Exact s) : Contract s ↔ Ordered s := by
  refine ⟨fun hcontract => hcontract.order, fun horder => ⟨horder, h.exactly, h.given, ?_⟩⟩
  intro _ call hlast selection hended hsome
  obtain ⟨other, hother, rfl⟩ := (h.exactly selection).mpr ⟨hended, hsome⟩
  obtain ⟨before, hgiven⟩ := List.getLast?_eq_some_iff.mp hlast
  have hpairwise : (s.given.map (·.selection)).Pairwise (· < ·) :=
    horder.sublist (List.filter_sublist.map _)
  rw [hgiven, List.map_append, List.pairwise_append] at hpairwise
  rw [hgiven] at hother
  rcases List.mem_append.mp hother with hold | hnew
  · exact (hpairwise.2.2 _ (List.mem_map_of_mem hold) _ (List.mem_singleton_self _)).le
  · rw [List.mem_singleton.mp hnew]

/-- **The contract of the watch.** It is kept all through a run exactly when each read that delivers
data ends before any later selection is settled. -/
theorem contract_iff (events : List Event) :
    (∀ before, before <+: events → Contract (run before)) ↔
      Transition.Guarded step InTurn {} events := by
  have hexact : ∀ before, Exact (run before) := fun before =>
    Transition.run_invariant (P := Exact) (fun _ e hs => exact_step hs e) exact_init before
  refine Iff.trans ?_ (Transition.guarded_iff_forall_prefix (I := Exact) (P := Ordered)
    (fun _ e hs _ => exact_step hs e) (fun _ e hs ho => ordered_step hs ho e) exact_init
    List.Pairwise.nil events)
  exact forall_congr' fun before => imp_congr_right fun _ => contract_iff_ordered (hexact before)

/-- An image is copied, and a text before the image is read. -/
theorem not_contract : ¬∀ events, Contract (run events) := by
  intro h
  have horder := (h [.selection (some [ofString "image/png"]) true,
    .selection (some [ofString "text/plain"]) true, .read 1 (some [98]), .read 1 (some []),
    .read 0 (some [137]), .read 0 (some [])]).order
  exact absurd horder (by decide +kernel)

end Selections

end Clipboard

end SingularityShell
