import SingularityShell.Lib.Transition
import SingularityShell.Search.Offered

/-!
# The protocol of a search session

A session starts the providers, some at once and some from a timer or an idle source, merges what
they find, and tells its listeners about it: at most once a frame while providers are searching, and
a last time when all are done. It can be cancelled at any point, also by a listener.

## Main definitions

* `Search.SearchRound`, `Search.SearchSession` — the state, with the searches that are running
* `Search.Event`, `Search.SearchSession.step` — what can happen to a session
* `Search.Protocol` — what listeners can rely on

## Main results

* `Search.protocol_of_guarded` — the protocol holds unless a listener cancels during the last update
* `Search.not_protocol` — such a listener is told that the search has finished
-/

namespace SingularityShell

namespace Search

open Transition

variable {σ τ : Type*}

/-! ### The state -/

structure SearchRound where
  pending : ℤ
  emitted : Bool := false

def SearchRound.finished (round : SearchRound) : Bool := round.pending ≤ 0

def SearchRound.providerDone (round : SearchRound) (hasResults : Bool) : Bool × SearchRound :=
  let pending := round.pending - 1
  if hasResults then (true, ⟨pending, true⟩)
  else if pending ≤ 0 ∧ !round.emitted then (true, ⟨pending, true⟩)
  else (false, ⟨pending, round.emitted⟩)

/-- What can be seen of a session from outside: the signals, the results of the providers, and the
returns of `cancel`. -/
inductive Signal (σ τ : Type*) where
  | completed (provider : ℕ) (found : Option (List (SearchResult σ τ)))
  | resultsUpdated (results : List (SearchResult σ τ))
  | finished
  | cancelReturned

/-- A session. `armed` holds the providers of the start sources, `searching` those whose search is
running, and `log` what has been seen so far. -/
structure SearchSession (σ τ : Type*) where
  cancelled : Bool := false
  done : Bool := false
  merged : List (SearchResult σ τ) := []
  round : SearchRound := ⟨0, false⟩
  dirty : Bool := false
  emittedOnce : Bool := false
  flushSource : Bool := false
  armed : List ℕ := []
  started : Bool := false
  providers : ℕ := 0
  searching : List ℕ := []
  log : List (Signal σ τ) := []

namespace SearchSession

variable (s : SearchSession σ τ)

/-! ### The methods -/

/-- `cancel` -/
def cancel : SearchSession σ τ :=
  if s.cancelled then { s with log := s.log ++ [.cancelReturned] }
  else { s with cancelled := true, armed := [], flushSource := false
                log := s.log ++ [.cancelReturned] }

/-- `emit_now`, to a listener that cancels the session or does not. -/
def emitNow (cancels : Bool) : SearchSession σ τ :=
  let s := { s with dirty := false, emittedOnce := true, flushSource := false
                    log := s.log ++ [.resultsUpdated s.merged] }
  if cancels then s.cancel else s

/-- `finish` -/
def finish : SearchSession σ τ :=
  if s.done then s else { s with done := true, log := s.log ++ [.finished] }

/-- `schedule_flush` -/
def scheduleFlush (cancels : Bool) : SearchSession σ τ :=
  if !s.emittedOnce then s.emitNow cancels
  else if s.flushSource then s
  else { s with flushSource := true }

/-- `run`, up to the point where the search of the provider is running. -/
def run (provider : ℕ) : SearchSession σ τ :=
  if s.cancelled then s else { s with searching := s.searching ++ [provider] }

/-- The loop of `start`: the first provider is run when it has no delay, every other one gets a
source. -/
def startLoop (i : ℕ) : List ℕ → SearchSession σ τ → SearchSession σ τ
  | [], s => s
  | wait :: waits, s =>
    if i = 0 ∧ wait = 0 then startLoop (i + 1) waits (s.run i)
    else startLoop (i + 1) waits { s with armed := s.armed ++ [i] }

/-- `start`, with the delay of every provider. -/
def start (waits : List ℕ) (cancels : Bool) : SearchSession σ τ :=
  let s := { s with started := true, providers := waits.length, round := ⟨waits.length, false⟩ }
  if s.round.finished then (s.emitNow cancels).finish
  else startLoop 0 waits s

/-- The end of the callback of a search. -/
def concludeRound (cancels : Bool) : SearchSession σ τ :=
  if s.round.finished then
    (if s.dirty || !s.emittedOnce then s.emitNow cancels else s).finish
  else s

variable [LinearOrder σ]

/-- The callback of a search that has found something, nothing or an error. -/
def complete (provider : ℕ) (found : Option (List (SearchResult σ τ))) (cancels : Bool) :
    SearchSession σ τ :=
  let s := { s with searching := s.searching.erase provider
                    log := s.log ++ [.completed provider found] }
  if s.cancelled then s
  else
    let found := found.getD []
    let any := !found.isEmpty
    let s := if any then { s with merged := merge s.merged found } else s
    let (emit, round) := s.round.providerDone any
    let s := { s with round }
    let s := if emit then scheduleFlush { s with dirty := true } cancels else s
    s.concludeRound cancels

/-- The frame timer. -/
def frame (cancels : Bool) : SearchSession σ τ :=
  let s := { s with flushSource := false }
  if s.dirty && !s.cancelled then s.emitNow cancels else s

end SearchSession

/-- What can happen to a session. A listener that is told about results in the event cancels the
session when `cancels` is set. -/
inductive Event (σ τ : Type*) where
  | start (waits : List ℕ) (cancels : Bool)
  | fire (provider : ℕ)
  | complete (provider : ℕ) (found : Option (List (SearchResult σ τ))) (cancels : Bool)
  | frame (cancels : Bool)
  | cancel

/-- A session is started once; sources fire while they are there, and a search completes once. -/
def Possible (s : SearchSession σ τ) : Event σ τ → Prop
  | .start _ _ => s.started = false
  | .fire provider => provider ∈ s.armed
  | .complete provider _ _ => provider ∈ s.searching
  | .frame _ => s.flushSource = true
  | .cancel => True

def SearchSession.step [LinearOrder σ] (s : SearchSession σ τ) : Event σ τ → SearchSession σ τ
  | .start waits cancels => s.start waits cancels
  | .fire provider => { s with armed := s.armed.erase provider }.run provider
  | .complete provider found cancels => s.complete provider found cancels
  | .frame cancels => s.frame cancels
  | .cancel => s.cancel

/-! ### The protocol -/

def Completed (log : List (Signal σ τ)) (provider : ℕ) : Prop :=
  ∃ found, .completed provider found ∈ log

/-- The lists of results that providers have found. -/
def foundLists (log : List (Signal σ τ)) : List (List (SearchResult σ τ)) :=
  log.filterMap fun
    | .completed _ (some found) => if found.isEmpty then none else some found
    | _ => none

/-- The results of the last update. -/
def lastResults (log : List (Signal σ τ)) : Option (List (SearchResult σ τ)) :=
  (log.filterMap fun
    | .resultsUpdated results => some results
    | _ => none).getLast?

/-- Listeners are told nothing. -/
def Quiet (log : List (Signal σ τ)) : Prop :=
  ∀ signal ∈ log, signal ≠ .finished ∧ ∀ results, signal ≠ .resultsUpdated results

/-- What listeners rely on. A session that is not cancelled finishes exactly when all providers have
completed, once, with the merge of all results in the last update before and no update after it.
Once `cancel` has returned, listeners are told nothing. -/
structure Protocol [LinearOrder σ] (s : SearchSession σ τ) : Prop where
  finishes : s.cancelled = false → s.started = true →
    (.finished ∈ s.log ↔ ∀ i < s.providers, Completed s.log i)
  finished : s.cancelled = false → ∀ before after, s.log = before ++ .finished :: after →
    (∀ i < s.providers, Completed before i) ∧ Quiet after ∧
      lastResults before = some (mergeAll (foundLists before))
  cancelled : ∀ before after, s.log = before ++ .cancelReturned :: after → Quiet after

/-- No listener cancels during the update with which the session finishes, and a session without
providers is not cancelled before it starts. -/
def Spared (s : SearchSession σ τ) : Event σ τ → Prop
  | .start waits cancels => waits = [] → cancels = false ∧ s.cancelled = false
  | .complete _ _ cancels => s.round.pending ≤ 1 → cancels = false
  | _ => True

/-! ### What is seen -/

section
variable {log : List (Signal σ τ)} {signal : Signal σ τ}

theorem completed_append {i : ℕ} :
    Completed (log ++ [signal]) i ↔ Completed log i ∨ ∃ found, signal = .completed i found := by
  simp only [Completed, List.mem_append, List.mem_singleton, exists_or]
  exact or_congr_right (exists_congr fun _ => eq_comm)

theorem foundLists_append_of_ne (h : ∀ i found, signal ≠ .completed i found) :
    foundLists (log ++ [signal]) = foundLists log := by
  cases signal with
  | completed i found => exact absurd rfl (h i found)
  | _ => simp [foundLists]

theorem foundLists_append_completed (i : ℕ) (found : Option (List (SearchResult σ τ))) :
    foundLists (log ++ [.completed i found]) =
      if (found.getD []).isEmpty then foundLists log else foundLists log ++ [found.getD []] := by
  cases found with
  | none => simp [foundLists]
  | some found => cases found <;> simp [foundLists]

theorem lastResults_append_of_ne (h : ∀ results, signal ≠ .resultsUpdated results) :
    lastResults (log ++ [signal]) = lastResults log := by
  cases signal with
  | resultsUpdated results => exact absurd rfl (h results)
  | _ => simp [lastResults]

theorem lastResults_append_updated (results : List (SearchResult σ τ)) :
    lastResults (log ++ [.resultsUpdated results]) = some results := by
  simp [lastResults]

end

/-! ### The invariant -/

variable [LinearOrder σ]

/-- A started session that has neither finished nor been cancelled, whatever its flags are. -/
structure Base (s : SearchSession σ τ) : Prop where
  cancelled : s.cancelled = false
  started : s.started = true
  done : s.done = false
  notReturned : .cancelReturned ∉ s.log
  notFinished : .finished ∉ s.log
  nodup : (s.armed ++ s.searching).Nodup
  pending : s.round.pending = (s.armed ++ s.searching).length
  mem : ∀ i, i ∈ s.armed ++ s.searching ↔ i < s.providers ∧ ¬Completed s.log i
  merged : s.merged = mergeAll (foundLists s.log)
  emitted : s.emittedOnce = (lastResults s.log).isSome

/-- What the flags of a session tell between two events. -/
structure Flags (s : SearchSession σ τ) : Prop where
  clean : s.dirty = false → s.emittedOnce = true → lastResults s.log = some s.merged
  dirty : s.dirty = true → s.emittedOnce = true
  flush : s.flushSource = true → s.dirty = true
  round : s.round.emitted = true → s.emittedOnce = true

/-- A session that has finished. -/
structure Finished (s : SearchSession σ τ) : Prop where
  cancelled : s.cancelled = false
  started : s.started = true
  armed : s.armed = []
  searching : s.searching = []
  flush : s.flushSource = false
  log : ∃ before, s.log = before ++ [.finished] ∧ .finished ∉ before ∧ .cancelReturned ∉ before ∧
    (∀ i < s.providers, Completed before i) ∧
      lastResults before = some (mergeAll (foundLists before))

/-- A session that was cancelled. -/
structure Stopped (s : SearchSession σ τ) : Prop where
  cancelled : s.cancelled = true
  flush : s.flushSource = false
  log : ∃ before after, s.log = before ++ .cancelReturned :: after ∧ .cancelReturned ∉ before ∧
    Quiet after

/-- A session between two events. -/
inductive Stage (s : SearchSession σ τ) : Prop where
  | new (h : s = {})
  | searching (base : Base s) (flags : Flags s) (pending : 0 < s.round.pending)
  | finished (h : Finished s)
  | stopped (h : Stopped s)

section
variable {s : SearchSession σ τ}

theorem Base.emitNow (h : Base s) : Base (s.emitNow false) ∧ Flags (s.emitNow false) := by
  have hbase : Base (s.emitNow false) := by
    refine ⟨h.cancelled, h.started, h.done, ?_, ?_, h.nodup, h.pending, fun i => ?_, ?_, ?_⟩
    · simpa [SearchSession.emitNow] using h.notReturned
    · simpa [SearchSession.emitNow] using h.notFinished
    · simpa [SearchSession.emitNow, completed_append] using h.mem i
    · simpa [SearchSession.emitNow, foundLists_append_of_ne] using h.merged
    · simp [SearchSession.emitNow, lastResults_append_updated]
  refine ⟨hbase, fun _ _ => ?_, fun hd => ?_, fun hf => ?_, fun _ => rfl⟩
  · simp [SearchSession.emitNow, lastResults_append_updated]
  · simp [SearchSession.emitNow] at hd
  · simp [SearchSession.emitNow] at hf

theorem Base.emitNow_cancels (h : Base s) : Stopped (s.emitNow true) := by
  refine ⟨?_, ?_, s.log ++ [.resultsUpdated s.merged], [], ?_, ?_, by simp [Quiet]⟩
  · simp [SearchSession.emitNow, SearchSession.cancel, h.cancelled]
  · simp [SearchSession.emitNow, SearchSession.cancel, h.cancelled]
  · simp [SearchSession.emitNow, SearchSession.cancel, h.cancelled]
  · simpa using h.notReturned

theorem Base.finish (h : Base s) (hpending : s.round.pending ≤ 0) (hflush : s.flushSource = false)
    (hlast : lastResults s.log = some s.merged) : Finished s.finish := by
  have hnil : s.armed ++ s.searching = [] := by
    have := h.pending
    exact List.length_eq_zero_iff.mp (by omega)
  obtain ⟨harmed, hsearching⟩ := List.append_eq_nil_iff.mp hnil
  have hall : ∀ i < s.providers, Completed s.log i := by
    intro i hi
    by_contra hc
    have := (h.mem i).mpr ⟨hi, hc⟩
    simp [hnil] at this
  rw [SearchSession.finish, h.done]
  exact ⟨h.cancelled, h.started, harmed, hsearching, hflush, s.log, rfl, h.notFinished,
    h.notReturned, hall, hlast.trans (congrArg some h.merged)⟩

omit [LinearOrder σ] in
theorem concludeRound_of_pos (hpending : 0 < s.round.pending) (cancels : Bool) :
    s.concludeRound cancels = s := by
  rw [SearchSession.concludeRound, SearchRound.finished, if_neg (by simpa using hpending)]

/-- The end of a callback: the session goes on, or it finishes. -/
theorem Base.concludeRound (h : Base s) (hf : Flags s) {cancels : Bool}
    (hspared : s.round.pending ≤ 0 → cancels = false) : Stage (s.concludeRound cancels) := by
  by_cases hpending : s.round.pending ≤ 0
  · rw [hspared hpending, SearchSession.concludeRound, SearchRound.finished,
      if_pos (by simpa using hpending)]
    by_cases hemit : s.dirty || !s.emittedOnce
    · rw [if_pos hemit]
      obtain ⟨hbase, hflags⟩ := h.emitNow
      exact .finished (hbase.finish hpending rfl (hflags.clean rfl rfl))
    · rw [if_neg hemit]
      obtain ⟨hd, he⟩ : s.dirty = false ∧ s.emittedOnce = true := by simpa using hemit
      refine .finished (h.finish hpending ?_ (hf.clean hd he))
      by_contra hflush
      simp [hf.flush (by simpa using hflush)] at hd
  · rw [concludeRound_of_pos (by omega)]
    exact .searching h hf (by omega)

/-- A search ends: what the providers have found is merged, and the provider is no longer out. -/
theorem Base.complete (h : Base s) {provider : ℕ} (hp : provider ∈ s.searching)
    (found : Option (List (SearchResult σ τ))) (round : SearchRound)
    (hround : round.pending = s.round.pending - 1) (dirty : Bool) :
    Base { s with
      searching := s.searching.erase provider
      log := s.log ++ [.completed provider found]
      merged := if (found.getD []).isEmpty then s.merged else merge s.merged (found.getD [])
      round
      dirty } := by
  have hnot : provider ∉ s.armed := fun ha => by
    exact (List.nodup_append.mp h.nodup).2.2 provider ha provider hp rfl
  have hsearching : s.searching.Nodup := (List.nodup_append.mp h.nodup).2.1
  refine ⟨h.cancelled, h.started, h.done, ?_, ?_, ?_, ?_, fun i => ?_, ?_, ?_⟩
  · simpa using h.notReturned
  · simpa using h.notFinished
  · exact h.nodup.sublist ((List.Sublist.refl _).append List.erase_sublist)
  · have := List.length_pos_of_mem hp
    have hpending := h.pending
    simp only [List.length_append, List.length_erase_of_mem hp] at hpending ⊢
    omega
  · have hi := h.mem i
    simp only [List.mem_append, hsearching.mem_erase_iff, completed_append] at hi ⊢
    by_cases heq : i = provider
    · simp [heq, hnot]
    · have hne : ∀ found', Signal.completed provider found ≠ .completed i found' := by
        rintro found' ⟨⟩
        exact heq rfl
      simpa [heq, hne, Ne.symm heq] using hi
  · rw [foundLists_append_completed]
    split
    · exact h.merged
    · rw [mergeAll_append, h.merged]
  · simpa [lastResults_append_of_ne] using h.emitted

/-- A flush that is scheduled is made at once or left to the frame timer. -/
theorem Base.scheduleFlush (h : Base s) (hd : s.dirty = true) {cancels : Bool}
    (hspared : s.round.pending ≤ 0 → cancels = false) :
    Stage ((s.scheduleFlush cancels).concludeRound cancels) := by
  rw [SearchSession.scheduleFlush]
  by_cases he : s.emittedOnce = true
  · have hflags : ∀ flushSource, Flags { s with flushSource } := fun flushSource =>
      ⟨fun h => absurd (hd.symm.trans h) (by simp), fun _ => he, fun _ => hd, fun _ => he⟩
    rw [if_neg (by simp [he])]
    split
    · exact h.concludeRound (hflags s.flushSource) hspared
    · have hbase : Base { s with flushSource := true } := { h with }
      exact hbase.concludeRound (hflags true) hspared
  · rw [if_pos (by simpa using he)]
    cases cancels with
    | false =>
      obtain ⟨hbase, hflags⟩ := h.emitNow
      exact hbase.concludeRound hflags fun _ => rfl
    | true =>
      have hpending : 0 < s.round.pending := by
        by_contra hle
        exact absurd (hspared (by omega)) (by simp)
      have hround : (s.emitNow true).round = s.round := by
        simp [SearchSession.emitNow, SearchSession.cancel, h.cancelled]
      rw [concludeRound_of_pos (hround ▸ hpending)]
      exact .stopped h.emitNow_cancels

theorem Stage.complete (h : Base s) (hf : Flags s) {provider : ℕ} (hp : provider ∈ s.searching)
    (found : Option (List (SearchResult σ τ))) {cancels : Bool}
    (hspared : s.round.pending ≤ 1 → cancels = false) :
    Stage (s.complete provider found cancels) := by
  cases hdone : s.round.providerDone (!(found.getD []).isEmpty) with
  | mk emit round =>
  have hpending : round.pending = s.round.pending - 1 := by
    have hsnd : (s.round.providerDone (!(found.getD []).isEmpty)).2.pending =
        s.round.pending - 1 := by
      rw [SearchRound.providerDone]
      split
      · rfl
      · split <;> rfl
    rwa [hdone] at hsnd
  have hcomplete : s.complete provider found cancels = SearchSession.concludeRound
      (if emit then SearchSession.scheduleFlush { s with
          searching := s.searching.erase provider
          log := s.log ++ [.completed provider found]
          merged := if (found.getD []).isEmpty then s.merged else merge s.merged (found.getD [])
          round
          dirty := true } cancels
        else { s with
          searching := s.searching.erase provider
          log := s.log ++ [.completed provider found]
          merged := if (found.getD []).isEmpty then s.merged else merge s.merged (found.getD [])
          round
          dirty := s.dirty }) cancels := by
    rw [SearchSession.complete]
    simp only [h.cancelled, Bool.false_eq_true, if_false]
    cases hempty : (found.getD []).isEmpty <;> simp [hempty] at hdone ⊢ <;> simp [hdone]
  have hbase := h.complete hp found round hpending
  have hspared' : round.pending ≤ 0 → cancels = false := fun hle => hspared (by omega)
  rw [hcomplete]
  cases emit with
  | true => exact (hbase true).scheduleFlush rfl hspared'
  | false =>
    -- Nothing was found, and this is not the end of a round without results.
    have hnone : (found.getD []).isEmpty = true ∧ round.emitted = s.round.emitted := by
      rw [SearchRound.providerDone] at hdone
      cases hempty : (found.getD []).isEmpty with
      | false => simp [hempty] at hdone
      | true =>
        simp only [hempty, Bool.not_true, Bool.false_eq_true, if_false] at hdone
        split at hdone
        · simp at hdone
        · exact ⟨rfl, by simp at hdone; rw [← hdone]⟩
    refine (hbase s.dirty).concludeRound
      ⟨fun hd he => ?_, hf.dirty, hf.flush, fun hr => ?_⟩ hspared'
    · rw [lastResults_append_of_ne (by simp), if_pos hnone.1]
      exact hf.clean hd he
    · exact hf.round (hnone.2 ▸ hr)

omit [LinearOrder σ] in
theorem startLoop_spec (waits : List ℕ) (i : ℕ) (s : SearchSession σ τ)
    (hs : s.cancelled = false) : ∃ armed searching,
      SearchSession.startLoop i waits s =
        { s with armed := s.armed ++ armed, searching := s.searching ++ searching } ∧
      (armed ++ searching).Perm (List.range' i waits.length) := by
  induction waits generalizing i s with
  | nil => exact ⟨[], [], by simp [SearchSession.startLoop], .refl _⟩
  | cons wait waits ih =>
    rw [SearchSession.startLoop]
    split
    · obtain ⟨armed, searching, heq, hperm⟩ := ih (i + 1) (s.run i)
        (by simp [SearchSession.run, hs])
      refine ⟨armed, i :: searching, ?_, ?_⟩
      · rw [heq]
        simp [SearchSession.run, hs]
      · rw [List.length_cons, List.range'_succ]
        exact List.perm_middle.trans (hperm.cons i)
    · obtain ⟨armed, searching, heq, hperm⟩ := ih (i + 1) { s with armed := s.armed ++ [i] } hs
      refine ⟨i :: armed, searching, ?_, ?_⟩
      · rw [heq]
        simp
      · rw [List.length_cons, List.range'_succ]
        exact hperm.cons i

omit [LinearOrder σ] in
theorem startLoop_frame (waits : List ℕ) (i : ℕ) (s : SearchSession σ τ) :
    (SearchSession.startLoop i waits s).log = s.log ∧
      (SearchSession.startLoop i waits s).cancelled = s.cancelled ∧
      (SearchSession.startLoop i waits s).flushSource = s.flushSource := by
  induction waits generalizing i s with
  | nil => exact ⟨rfl, rfl, rfl⟩
  | cons wait waits ih =>
    rw [SearchSession.startLoop]
    split
    · obtain ⟨h1, h2, h3⟩ := ih (i + 1) (s.run i)
      rw [h1, h2, h3, SearchSession.run]
      split <;> exact ⟨rfl, rfl, rfl⟩
    · exact ih (i + 1) _

theorem Stage.start {waits : List ℕ} {cancels : Bool} (hspared : waits = [] → cancels = false) :
    Stage (({} : SearchSession σ τ).start waits cancels) := by
  rw [SearchSession.start]
  by_cases hw : waits = []
  · subst hw
    have hbase : Base ({ started := true, providers := 0, round := ⟨0, false⟩ } :
        SearchSession σ τ) :=
      ⟨rfl, rfl, rfl, by simp, by simp, .nil, rfl, by simp, rfl, rfl⟩
    obtain ⟨hbase', hflags⟩ := hbase.emitNow
    rw [hspared rfl]
    exact .finished (hbase'.finish le_rfl rfl (hflags.clean rfl rfl))
  · obtain ⟨armed, searching, heq, hperm⟩ := startLoop_spec waits 0
      ({ started := true, providers := waits.length, round := ⟨waits.length, false⟩ } :
        SearchSession σ τ) rfl
    have hlength : 0 < waits.length := List.length_pos_iff.mpr hw
    have hfinished : SearchRound.finished ⟨(waits.length : ℤ), false⟩ = false := by
      simpa [SearchRound.finished] using hw
    simp only [hfinished, Bool.false_eq_true, if_false]
    rw [heq]
    have hrange := hperm.length_eq
    rw [List.length_range'] at hrange
    refine .searching ⟨rfl, rfl, rfl, by simp, by simp, ?_, ?_, fun i => ?_, rfl, rfl⟩
      ⟨fun _ h => (by cases h), fun h => (by cases h), fun h => (by cases h),
        fun h => (by cases h)⟩ ?_
    · exact hperm.nodup_iff.mpr List.nodup_range'
    · have hcast : (waits.length : ℤ) = (armed ++ searching).length := by exact_mod_cast hrange.symm
      simpa using hcast
    · have hmem := hperm.mem_iff (a := i)
      simp only [List.mem_range'_1, zero_le, zero_add, true_and] at hmem
      simpa [Completed] using hmem
    · simpa using hlength

theorem Stage.fire (h : Base s) (hf : Flags s) (hpending : 0 < s.round.pending) {provider : ℕ}
    (hp : provider ∈ s.armed) :
    Stage (({ s with armed := s.armed.erase provider } : SearchSession σ τ).run provider) := by
  have hperm : (s.armed.erase provider ++ (s.searching ++ [provider])).Perm
      (s.armed ++ s.searching) := by
    have hcons := (List.perm_cons_erase hp).symm.append_right s.searching
    refine List.Perm.trans ?_ hcons
    rw [← List.append_assoc]
    exact List.perm_append_singleton provider _
  have hrun : ({ s with armed := s.armed.erase provider } : SearchSession σ τ).run provider =
      { s with armed := s.armed.erase provider, searching := s.searching ++ [provider] } := by
    simp [SearchSession.run, h.cancelled]
  rw [hrun]
  exact .searching
    { h with
      nodup := hperm.nodup_iff.mpr h.nodup
      pending := by rw [hperm.length_eq]; exact h.pending
      mem := fun i => hperm.mem_iff.trans (h.mem i) }
    ⟨hf.clean, hf.dirty, hf.flush, hf.round⟩ hpending

theorem Stage.frame (h : Base s) (hf : Flags s) (hpending : 0 < s.round.pending) (cancels : Bool) :
    Stage (s.frame cancels) := by
  have hbase : Base { s with flushSource := false } := { h with }
  have hcond : (s.dirty && !s.cancelled) = s.dirty := by simp [h.cancelled]
  rw [SearchSession.frame]
  dsimp only
  rw [hcond]
  split
  · cases cancels with
    | false =>
      obtain ⟨hbase', hflags⟩ := hbase.emitNow
      exact .searching hbase' hflags hpending
    | true => exact .stopped hbase.emitNow_cancels
  · exact .searching hbase ⟨hf.clean, hf.dirty, fun h => (by cases h), hf.round⟩ hpending

omit [LinearOrder σ] in
/-- Cancelling a session that has not been cancelled. -/
theorem Stopped.cancel (hc : s.cancelled = false) (hlog : .cancelReturned ∉ s.log) :
    Stopped s.cancel := by
  rw [SearchSession.cancel, if_neg (by simp [hc])]
  exact ⟨rfl, rfl, s.log, [], rfl, hlog, by simp [Quiet]⟩

omit [LinearOrder σ] in
/-- A cancelled session that tells its listeners nothing more. -/
theorem Stopped.of_log {s' : SearchSession σ τ} (h : Stopped s) (hc : s'.cancelled = s.cancelled)
    (hf : s'.flushSource = s.flushSource) {new : List (Signal σ τ)} (hlog : s'.log = s.log ++ new)
    (hquiet : Quiet new) : Stopped s' := by
  obtain ⟨before, after, heq, hbefore, hafter⟩ := h.log
  refine ⟨hc.trans h.cancelled, hf.trans h.flush, before, after ++ new, ?_, hbefore, ?_⟩
  · rw [hlog, heq, List.append_assoc, List.cons_append]
  · exact fun signal hs => (List.mem_append.mp hs).elim (hafter signal) (hquiet signal)

theorem Stopped.step (h : Stopped s) {e : Event σ τ} (hspared : Spared s e) :
    Stopped (s.step e) := by
  cases e with
  | start waits cancels =>
    have hne : waits ≠ [] := fun hw => by simpa [h.cancelled] using (hspared hw).2
    have hfinished : SearchRound.finished ⟨(waits.length : ℤ), false⟩ = false := by
      simpa [SearchRound.finished] using hne
    rw [SearchSession.step, SearchSession.start]
    simp only [hfinished, Bool.false_eq_true, if_false]
    obtain ⟨h1, h2, h3⟩ := startLoop_frame waits 0
      { s with started := true, providers := waits.length, round := ⟨waits.length, false⟩ }
    exact h.of_log h2 h3 (h1.trans (List.append_nil _).symm) (by simp [Quiet])
  | fire provider =>
    rw [SearchSession.step, SearchSession.run, if_pos h.cancelled]
    exact h.of_log rfl rfl (List.append_nil _).symm (by simp [Quiet])
  | complete provider found cancels =>
    rw [SearchSession.step, SearchSession.complete]
    simp only [h.cancelled, if_true]
    exact h.of_log h.cancelled.symm rfl rfl (by simp [Quiet])
  | frame cancels =>
    rw [SearchSession.step, SearchSession.frame]
    simp only [h.cancelled, Bool.not_true, Bool.and_false, Bool.false_eq_true, if_false]
    exact h.of_log h.cancelled.symm h.flush.symm (List.append_nil _).symm (by simp [Quiet])
  | cancel =>
    rw [SearchSession.step, SearchSession.cancel, if_pos h.cancelled]
    exact h.of_log rfl rfl rfl (by simp [Quiet])

/-- **What one event keeps.** -/
theorem Stage.step (h : Stage s) {e : Event σ τ} (hpossible : Possible s e) (hspared : Spared s e) :
    Stage (s.step e) := by
  cases h with
  | new h =>
    subst h
    cases e with
    | start waits cancels => exact .start fun hw => (hspared hw).1
    | fire provider => cases hpossible
    | complete provider found cancels => cases hpossible
    | frame cancels => cases hpossible
    | cancel => exact .stopped (.cancel rfl (by simp))
  | searching hb hf hpending =>
    cases e with
    | start waits cancels => exact absurd (hb.started.symm.trans hpossible) (by simp)
    | fire provider => exact .fire hb hf hpending hpossible
    | complete provider found cancels => exact .complete hb hf hpossible found hspared
    | frame cancels => exact .frame hb hf hpending cancels
    | cancel => exact .stopped (.cancel hb.cancelled hb.notReturned)
  | finished h =>
    cases e with
    | start waits cancels => exact absurd (h.started.symm.trans hpossible) (by simp)
    | fire provider => simp [Possible, h.armed] at hpossible
    | complete provider found cancels => simp [Possible, h.searching] at hpossible
    | frame cancels => exact absurd (h.flush.symm.trans hpossible) (by simp)
    | cancel =>
      obtain ⟨before, hlog, -, hreturned, -⟩ := h.log
      exact .stopped (.cancel h.cancelled (by simpa [hlog] using hreturned))
  | stopped h => exact .stopped (h.step hspared)

omit [LinearOrder σ] in
/-- A signal that is not in the first part of a log. -/
theorem split_of_notMem {before after before' after' : List (Signal σ τ)} {x y : Signal σ τ}
    (h : before ++ x :: after = before' ++ y :: after') (hy : y ∉ before) :
    (before' = before ∧ y = x ∧ after' = after) ∨ ∃ middle, after = middle ++ y :: after' := by
  rcases List.append_eq_append_iff.mp h with ⟨m, hm, hrest⟩ | ⟨m, hm, hrest⟩
  · cases m with
    | nil =>
      obtain ⟨hxy, ha⟩ := List.cons.inj hrest
      exact .inl ⟨by simpa using hm, hxy.symm, ha.symm⟩
    | cons z m => exact .inr ⟨m, (List.cons.inj hrest).2⟩
  · cases m with
    | nil =>
      obtain ⟨hyx, ha⟩ := List.cons.inj hrest
      exact .inl ⟨by simpa using hm.symm, hyx, ha⟩
    | cons z m =>
      obtain ⟨hzy, -⟩ := List.cons.inj hrest
      exact absurd (by simp [hm, hzy]) hy

theorem Stage.protocol (h : Stage s) : Protocol s := by
  cases h with
  | new h =>
    subst h
    exact ⟨fun _ hs => (by cases hs), fun _ before after hl => by simp at hl,
      fun before after hl => by simp at hl⟩
  | searching hb hf hpending =>
    refine ⟨fun _ _ => iff_of_false hb.notFinished fun hall => ?_, fun _ before after hl => ?_,
      fun before after hl => ?_⟩
    · have hlength := hb.pending
      have hpos : 0 < (s.armed ++ s.searching).length := by omega
      obtain ⟨i, hi⟩ := List.exists_mem_of_length_pos hpos
      obtain ⟨hlt, hnot⟩ := (hb.mem i).mp hi
      exact hnot (hall i hlt)
    · exact absurd (by simp [hl]) hb.notFinished
    · exact absurd (by simp [hl]) hb.notReturned
  | finished h =>
    obtain ⟨before', hlog, hfinished, hreturned, hall, hlast⟩ := h.log
    have hsplit : ∀ before after, s.log = before ++ .finished :: after →
        before = before' ∧ after = [] := by
      intro before after hl
      rcases split_of_notMem (hlog.symm.trans hl) hfinished with ⟨hb, -, ha⟩ | ⟨m, hm⟩
      · exact ⟨hb, ha⟩
      · simp at hm
    refine ⟨fun _ _ => iff_of_true (by simp [hlog]) fun i hi => ?_, fun _ before after hl => ?_,
      fun before after hl => ?_⟩
    · obtain ⟨found, hf⟩ := hall i hi
      exact ⟨found, by simp [hlog, hf]⟩
    · obtain ⟨rfl, rfl⟩ := hsplit before after hl
      exact ⟨hall, by simp [Quiet], hlast⟩
    · have hmem : .cancelReturned ∈ s.log := by simp [hl]
      simp [hlog, hreturned] at hmem
  | stopped h =>
    have hcancelled : ¬s.cancelled = false := by simp [h.cancelled]
    refine ⟨fun hc => absurd hc hcancelled, fun hc => absurd hc hcancelled,
      fun before after hl => ?_⟩
    obtain ⟨before', after', hlog, hbefore, hquiet⟩ := h.log
    rcases split_of_notMem (hlog.symm.trans hl) hbefore with ⟨-, -, rfl⟩ | ⟨m, rfl⟩
    · exact hquiet
    · exact fun signal hs => hquiet signal (by simp [hs])

end

/-- **The protocol of a search session.** Whatever the order in which the providers start and
complete, the timers fire and the session is cancelled, listeners can rely on the protocol, when
none of them cancels during the update with which the session finishes. -/
theorem protocol_of_guarded (events : List (Event σ τ))
    (h : Guarded SearchSession.step (fun s e => Possible s e ∧ Spared s e) {} events) :
    Protocol (Transition.run SearchSession.step {} events) := by
  have hstage : Stage (Transition.run SearchSession.step ({} : SearchSession σ τ) events) :=
    h.invariant (fun s e hs he => hs.step he.1 he.2) (.new rfl)
  exact hstage.protocol

/-- One provider that finds nothing, and a listener that cancels when it is told so. -/
def lastUpdate (cancels : Bool) : List (Event ℕ Unit) :=
  [.start [0] false, .complete 0 none cancels]

theorem protocol_lastUpdate : Protocol (Transition.run SearchSession.step {} (lastUpdate false)) :=
  protocol_of_guarded _ (by
    refine ⟨⟨rfl, fun h => by cases h⟩, ⟨List.mem_singleton.mpr rfl, fun _ => rfl⟩, trivial⟩)

/-- A listener that cancels during the last update is told that the search has finished. -/
theorem not_protocol : ¬∀ events : List (Event ℕ Unit),
    Guarded SearchSession.step Possible {} events →
      Protocol (Transition.run SearchSession.step {} events) := by
  intro h
  have hprotocol := h (lastUpdate true) ⟨rfl, List.mem_singleton.mpr rfl, trivial⟩
  have hquiet := hprotocol.cancelled [.completed 0 none, .resultsUpdated []] [.finished] rfl
  exact (hquiet .finished (by simp)).1 rfl

end Search

end SingularityShell
