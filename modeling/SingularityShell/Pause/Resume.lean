import SingularityShell.Pause.Model

/-!
# Applications that are resumed

A scope that was last asked to be resumed is thawed, provided that the kernel has caught up with the
pause before, and that the process of a window is in the scope that is named by its id.

## Main definitions

* `AppPause.Resumes` — what is meant
* `AppPause.Timely` — events after which it holds
* `AppPause.Idle` — nothing is frozen where applications cannot be paused

## Main results

* `AppPause.resume_iff` — what becomes of the scope that is to be resumed
* `AppPause.resumes_step` — one event
* `AppPause.resumes_iff` — what was asked to be resumed is thawed in every state of a run exactly
  when its events are such -/

namespace SingularityShell

namespace AppPause

open Ascii Transition

/-- The scope may be resumed: the kernel says that it is frozen, or it is not meant to be. -/
def CaughtUp (s : State) (path : Text) : Prop := s.freeze path = true → s.frozen path = true

/-- What is meant: what was asked to be resumed is thawed, and stays so when the kernel catches up.
-/
structure Resumes (s : State) : Prop where
  freeze : ∀ path, s.lastRequest path = some true → s.freeze path = false
  thaws : ∀ path, s.lastRequest path = some true → (s.settle path).frozen path = false

/-- An event after which what is meant holds. -/
def Timely (s : State) : Event → Prop
  | .resumed appId => CaughtUp s (s.scopePath appId)
  | .resumeRequested toplevel => ∀ win, s.windows.find? (·.handle = toplevel) = some win →
    CaughtUp s (s.scopePath win.appId) ∧ ∀ path, (s.getPid toplevel).bind s.appScopeOf = some path →
      path = s.scopePath win.appId ∨ s.freeze path = false
  | _ => True

/-- Nothing is frozen where applications cannot be paused. -/
def Idle (s : State) : Prop := s.available = false → ∀ path, s.freeze path = false

variable {s t : State} {path q : Text} {v : Bool}

/-! ### What the kernel says -/

theorem readKey_frozen : ∀ populated frozen : Bool, readKey (some (ofString "populated " ++
    flag populated ++ ofString "\nfrozen " ++ flag frozen ++ ofString "\n")) (ofString "frozen") =
      if frozen then 1 else 0 := by
  decide

theorem readKey_events_frozen : readKey (s.events path) (ofString "frozen") =
    if s.frozen path then 1 else 0 := by
  rw [State.events, State.frozen]
  cases s.cgroup? path with
  | none => rfl
  | some c => exact readKey_frozen _ _

theorem isPaused_iff {appId : Text} : s.isPaused appId = true ↔
    s.available = true ∧ s.frozen (s.scopePath appId) = true := by
  rw [State.isPaused, readKey_events_frozen]
  cases s.frozen (s.scopePath appId) <;> simp

/-! ### Groups -/

theorem freeze_congr (h : t.cgroups = s.cgroups) : t.freeze q = s.freeze q := by
  rw [State.freeze, State.freeze, State.cgroup?, State.cgroup?, h]

theorem freeze_mkdir : (s.mkdir path).freeze q = s.freeze q := by
  rw [State.mkdir]
  split
  · rfl
  · rw [State.freeze, State.freeze, State.cgroup?, State.cgroup?, List.find?_append]
    cases s.cgroups.find? (·.path = q) with
    | some c => rfl
    | none =>
      rw [Option.none_or, List.find?_singleton]
      split
      · rfl
      · rfl

/-- A group is found under its name when others are changed. -/
theorem find?_map_path {f : Cgroup → Cgroup} (hf : ∀ c, (f c).path = c.path) :
    (s.cgroups.map f).find? (·.path = q) = (s.cgroup? q).map f := by
  rw [List.find?_map, State.cgroup?]
  simp only [Function.comp_def, hf]

theorem freeze_writeFreeze_of_ne (h : q ≠ path) : (s.writeFreeze path v).freeze q = s.freeze q := by
  rw [State.freeze, State.cgroup?, State.writeFreeze, find?_map_path, State.freeze]
  · cases hq : s.cgroup? q with
    | none => rfl
    | some c =>
      have hpath : c.path = q := by simpa using List.find?_some hq
      rw [Option.map_some, if_neg fun hc => h (hpath.symm.trans hc)]
  · intro c
    split <;> rfl

theorem freeze_writeFreeze_false : (s.writeFreeze path false).freeze path = false := by
  rw [State.freeze, State.cgroup?, State.writeFreeze, find?_map_path]
  · cases hq : s.cgroup? path with
    | none => rfl
    | some c =>
      have hpath : c.path = path := by simpa using List.find?_some hq
      rw [Option.map_some, if_pos hpath]
      rfl
  · intro c
    split <;> rfl

theorem freeze_thaw (h : s.freeze q = false) : (s.writeFreeze path false).freeze q = false := by
  by_cases hq : q = path
  · rw [hq, freeze_writeFreeze_false]
  · rw [freeze_writeFreeze_of_ne hq, h]

theorem freeze_settle : (s.settle path).freeze q = s.freeze q := by
  rw [State.freeze, State.cgroup?, State.settle, find?_map_path, State.freeze]
  · cases s.cgroup? q with
    | none => rfl
    | some c =>
      rw [Option.map_some, Option.any_some, Option.any_some]
      split <;> rfl
  · intro c
    split <;> rfl

theorem frozen_settle : (s.settle path).frozen path = s.freeze path := by
  rw [State.frozen, State.cgroup?, State.settle, find?_map_path, State.freeze]
  · cases hq : s.cgroup? path with
    | none => rfl
    | some c =>
      have hpath : c.path = path := by simpa using List.find?_some hq
      rw [Option.map_some, if_pos hpath]
      rfl
  · intro c
    split <;> rfl

/-- A group that is removed is removed with all of its name. -/
theorem find?_filter_path (g : Text → Bool) (groups : List Cgroup) :
    (groups.filter fun c => g c.path).find? (·.path = q) =
      if g q then groups.find? (·.path = q) else none := by
  rw [List.find?_filter]
  by_cases hg : g q = true
  · rw [if_pos hg]
    congr 1
    funext c
    by_cases hc : c.path = q
    · simp [hc, hg]
    · simp [hc]
  · rw [if_neg hg, List.find?_eq_none]
    intro c _ hc
    obtain ⟨hkept, hpath⟩ : g c.path = true ∧ c.path = q := by simpa using hc
    exact hg (hpath ▸ hkept)

theorem freeze_prune (h : s.freeze q = false) : (prune s).freeze q = false := by
  rw [State.freeze, State.cgroup?, prune,
    find?_filter_path fun path => !(s.groups.any fun group => group.path = path ∧
      readKey (s.events group.path) (ofString "populated") = 0)]
  split
  · exact h
  · rfl

/-! ### The methods -/

variable {appId : Text} {made : Bool} {handle : ℕ} {p : Process}

/-- **Resuming.** The scope is thawed exactly when the kernel has caught up with it. -/
theorem resume_iff (h : Idle s) :
    (resume appId s).2.freeze (s.scopePath appId) = false ↔ CaughtUp s (s.scopePath appId) := by
  rw [resume, CaughtUp]
  by_cases hpaused : s.isPaused appId = true
  · rw [if_neg (by simp [hpaused])]
    exact ⟨fun _ _ => (isPaused_iff.mp hpaused).2, fun _ => freeze_writeFreeze_false⟩
  · rw [if_pos (by simp [hpaused])]
    refine ⟨fun hf hc => absurd (hf.symm.trans hc) Bool.false_ne_true, fun hcaught => ?_⟩
    by_contra hc
    have hfreeze : s.freeze (s.scopePath appId) = true := by simpa using hc
    cases havailable : s.available with
    | true => exact hpaused (isPaused_iff.mpr ⟨havailable, hcaught hfreeze⟩)
    | false => exact hc (h havailable _)

theorem freeze_resume (h : s.freeze q = false) : (resume appId s).2.freeze q = false := by
  rw [resume]
  split
  · exact h
  · exact freeze_thaw h

theorem freeze_resume_of_ne (h : q ≠ s.scopePath appId) :
    (resume appId s).2.freeze q = s.freeze q := by
  rw [resume]
  split
  · rfl
  · exact freeze_writeFreeze_of_ne h

theorem freeze_pause_of_ne (h : q ≠ s.scopePath appId) :
    (pause appId s).2.freeze q = s.freeze q := by
  rw [pause]
  split
  · rfl
  · exact freeze_writeFreeze_of_ne h

theorem freeze_onResumeRequested (h : s.freeze q = false) :
    (onResumeRequested handle s).freeze q = false := by
  rw [onResumeRequested]
  split
  · exact freeze_resume h
  · split
    · exact freeze_thaw h
    · exact h

theorem freeze_prepareLaunch : (prepareLaunch appId made s).2.freeze q = s.freeze q := by
  rw [prepareLaunch]
  split
  · rfl
  · dsimp only
    split
    · exact freeze_mkdir
    · rfl

theorem freeze_foldl_attach (members : List ℕ) :
    (members.foldl (fun t member => t.attach path member) s).freeze q = s.freeze q := by
  induction members generalizing s with
  | nil => rfl
  | cons member members ih => exact ih.trans (freeze_congr rfl)

theorem freeze_placeWindow : (placeWindow handle appId made s).freeze q = s.freeze q := by
  rw [placeWindow]
  split
  · rfl
  split
  · rfl
  split
  · rfl
  split
  · rfl
  dsimp only
  split
  · exact (freeze_foldl_attach _).trans freeze_mkdir
  · rfl

/-! ### What the methods keep -/

/-- Nothing is asked for, and nothing is frozen. -/
structure Keeps (s t : State) : Prop where
  available : t.available = s.available
  requests : t.requests = s.requests
  freeze : ∀ q, s.freeze q = false → t.freeze q = false

theorem Keeps.of_eq (havailable : t.available = s.available) (hrequests : t.requests = s.requests)
    (hfreeze : ∀ q, t.freeze q = s.freeze q) : Keeps s t :=
  ⟨havailable, hrequests, fun q hq => (hfreeze q).trans hq⟩

theorem keeps_resume : Keeps s (resume appId s).2 := by
  refine ⟨?_, ?_, fun q => freeze_resume⟩
  · rw [resume]
    split <;> rfl
  · rw [resume]
    split <;> rfl

theorem keeps_onResumeRequested : Keeps s (onResumeRequested handle s) := by
  refine ⟨?_, ?_, fun q => freeze_onResumeRequested⟩
  · rw [onResumeRequested]
    split
    · exact keeps_resume.available
    · split <;> rfl
  · rw [onResumeRequested]
    split
    · exact keeps_resume.requests
    · split <;> rfl

theorem mkdir_fields : (s.mkdir path).available = s.available ∧
    (s.mkdir path).requests = s.requests := by
  rw [State.mkdir]
  split
  · exact ⟨rfl, rfl⟩
  · exact ⟨rfl, rfl⟩

theorem keeps_prepareLaunch : Keeps s (prepareLaunch appId made s).2 := by
  refine .of_eq ?_ ?_ fun q => freeze_prepareLaunch
  · rw [prepareLaunch]
    split
    · rfl
    · dsimp only
      split
      · exact mkdir_fields.1
      · rfl
  · rw [prepareLaunch]
    split
    · rfl
    · dsimp only
      split
      · exact mkdir_fields.2
      · rfl

theorem foldl_attach_fields (members : List ℕ) :
    (members.foldl (fun t member => t.attach path member) s).available = s.available ∧
      (members.foldl (fun t member => t.attach path member) s).requests = s.requests := by
  induction members generalizing s with
  | nil => exact ⟨rfl, rfl⟩
  | cons member members ih => exact ih (s := s.attach path member)

theorem keeps_placeWindow : Keeps s (placeWindow handle appId made s) := by
  have hfields : (placeWindow handle appId made s).available = s.available ∧
      (placeWindow handle appId made s).requests = s.requests := by
    rw [placeWindow]
    split
    · exact ⟨rfl, rfl⟩
    split
    · exact ⟨rfl, rfl⟩
    split
    · exact ⟨rfl, rfl⟩
    split
    · exact ⟨rfl, rfl⟩
    dsimp only
    split
    · exact ⟨(foldl_attach_fields _).1.trans mkdir_fields.1,
        (foldl_attach_fields _).2.trans mkdir_fields.2⟩
    · exact ⟨rfl, rfl⟩
  exact .of_eq hfields.1 hfields.2 fun q => freeze_placeWindow

theorem Idle.keep (h : Idle s) (hk : Keeps s t) : Idle t := fun havailable q =>
  hk.freeze q (h (hk.available.symm.trans havailable) q)

/-! ### Requests -/

variable {paths : List Text} {resumed : Bool}

theorem resumes_iff_freeze :
    Resumes s ↔ ∀ path, s.lastRequest path = some true → s.freeze path = false :=
  ⟨Resumes.freeze, fun h => ⟨h, fun path hpath => frozen_settle.trans (h path hpath)⟩⟩

theorem Resumes.keep (h : Resumes s) (hk : Keeps s t) : Resumes t := by
  rw [resumes_iff_freeze] at h ⊢
  intro path hpath
  rw [State.lastRequest, hk.requests] at hpath
  exact hk.freeze path (h path hpath)

theorem lastRequest_ask : (s.ask paths resumed).lastRequest q =
    if q ∈ paths then some resumed else s.lastRequest q := by
  rw [State.lastRequest, State.ask, List.find?_append]
  by_cases hq : q ∈ paths
  · rw [if_pos hq]
    cases hfind : (paths.map (·, resumed)).find? (·.1 = q) with
    | none =>
      have hnone := List.find?_eq_none.mp hfind (q, resumed) (List.mem_map_of_mem hq)
      exact absurd (decide_eq_true rfl) hnone
    | some request =>
      obtain ⟨path, _, rfl⟩ := List.mem_map.mp (List.mem_of_find?_eq_some hfind)
      rfl
  · rw [if_neg hq, List.find?_eq_none.mpr, Option.none_or, State.lastRequest]
    intro request hrequest
    obtain ⟨path, hpath, rfl⟩ := List.mem_map.mp hrequest
    simpa using fun hc : path = q => hq (hc ▸ hpath)

/-- What was asked to be resumed before stays so; what is asked for now has to be thawed. -/
theorem resumes_ask_iff (h : Resumes s) (hk : Keeps (s.ask paths true) t) :
    Resumes t ↔ ∀ path ∈ paths, t.freeze path = false := by
  rw [resumes_iff_freeze] at h ⊢
  have hlast (path : Text) : t.lastRequest path =
      if path ∈ paths then some true else s.lastRequest path := by
    rw [State.lastRequest, hk.requests]
    exact lastRequest_ask
  refine ⟨fun hfreeze path hpath => hfreeze path ?_, fun hfreeze path hpath => ?_⟩
  · rw [hlast, if_pos hpath]
  · by_cases hmem : path ∈ paths
    · exact hfreeze path hmem
    · rw [hlast, if_neg hmem] at hpath
      exact hk.freeze path (h path hpath)

/-- A scope that is to be paused is not asked to be resumed. -/
theorem Resumes.pause (h : Resumes s) :
    Resumes (pause appId (s.ask [s.scopePath appId] false)).2 := by
  rw [resumes_iff_freeze] at h ⊢
  intro path hpath
  have hrequests : (AppPause.pause appId (s.ask [s.scopePath appId] false)).2.requests =
      (s.ask [s.scopePath appId] false).requests := by
    rw [AppPause.pause]
    split <;> rfl
  rw [State.lastRequest, hrequests] at hpath
  have hlast := lastRequest_ask.symm.trans hpath
  by_cases hmem : path ∈ [s.scopePath appId]
  · rw [if_pos hmem] at hlast
    cases hlast
  · rw [if_neg hmem] at hlast
    rw [freeze_pause_of_ne (s := s.ask _ _) fun hc => hmem (List.mem_singleton.mpr hc)]
    exact h path hlast

/-! ### Runs -/

theorem idle_pause (h : Idle s) : Idle (pause appId s).2 := by
  rw [pause]
  split
  · exact h
  · rename_i hpause
    intro havailable
    have hcan : s.canPause appId = true := by simpa using (not_or.mp hpause).1
    rw [State.canPause, show s.available = false from havailable] at hcan
    cases hcan

/-- What is neither a pause nor asks for anything to be resumed. -/
theorem keeps_step (e : Event) (hpaused : ∀ appId, e ≠ .paused appId)
    (hresumed : ∀ appId, e ≠ .resumed appId) (hrequested : ∀ handle, e ≠ .resumeRequested handle) :
    Keeps s (step s e) := by
  cases e with
  | started p =>
    exact .of_eq mkdir_fields.1 mkdir_fields.2 fun q => (freeze_congr rfl).trans freeze_mkdir
  | exited pid => exact .of_eq rfl rfl fun q => freeze_congr rfl
  | launched p desktopId made =>
    have hk : Keeps s (prepareLaunch (withoutDesktop desktopId) made s).2 := keeps_prepareLaunch
    exact ⟨hk.available, hk.requests, fun q hq => (freeze_congr rfl).trans (hk.freeze q hq)⟩
  | mapped handle pid => exact .of_eq rfl rfl fun q => freeze_congr rfl
  | opened win => exact .of_eq rfl rfl fun q => freeze_congr rfl
  | closed handle => exact .of_eq rfl rfl fun q => freeze_congr rfl
  | placed handle appId made => exact keeps_placeWindow
  | pruned => exact ⟨rfl, rfl, fun q => freeze_prune⟩
  | settled path => exact .of_eq rfl rfl fun q => freeze_settle
  | paused appId => exact absurd rfl (hpaused appId)
  | resumed appId => exact absurd rfl (hresumed appId)
  | resumeRequested handle => exact absurd rfl (hrequested handle)

theorem idle_ask (h : Idle s) : Idle (s.ask paths resumed) := h

theorem idle_step (h : Idle s) (e : Event) : Idle (step s e) := by
  cases e with
  | paused appId => exact idle_pause (idle_ask h)
  | resumed appId => exact (idle_ask h).keep keeps_resume
  | resumeRequested handle =>
    rw [step]
    split
    · exact (idle_ask h).keep keeps_onResumeRequested
    · exact idle_ask h
  | _ => exact h.keep (keeps_step _ (by simp) (by simp) (by simp))

theorem onResumeRequested_of_listed {win : Window}
    (h : s.windows.find? (·.handle = handle) = some win) :
    onResumeRequested handle s = (resume win.appId s).2 := by
  rw [onResumeRequested, h]

theorem onResumeRequested_of_unlisted (h : s.windows.find? (·.handle = handle) = none)
    (hpath : (s.getPid handle).bind s.appScopeOf = some path) :
    onResumeRequested handle s = s.writeFreeze path false := by
  rw [onResumeRequested, h]
  dsimp only
  rw [hpath]

/-- A request for a window. -/
theorem requested_iff (h : Idle s) (hr : Resumes s) :
    Resumes (step s (.resumeRequested handle)) ↔ Timely s (.resumeRequested handle) := by
  rw [step, Timely]
  by_cases havailable : s.available = true
  · rw [if_pos havailable, resumes_ask_iff hr keeps_onResumeRequested]
    obtain ⟨paths, hpaths⟩ : ∃ paths, paths = s.requested handle := ⟨_, rfl⟩
    rw [← hpaths]
    rw [State.requested] at hpaths
    cases hwin : s.windows.find? (·.handle = handle) with
    | none =>
      rw [hwin] at hpaths
      constructor
      · intro _ win hc
        cases hc
      · intro _ path hpath
        have hscope : (s.getPid handle).bind s.appScopeOf = some path := by
          simpa [hpaths] using hpath
        rw [onResumeRequested_of_unlisted (s := s.ask paths true) hwin hscope]
        exact freeze_writeFreeze_false
    | some win =>
      rw [onResumeRequested_of_listed (s := s.ask paths true) hwin]
      rw [hwin] at hpaths
      have hmem (path : Text) : path ∈ paths ↔
          path = s.scopePath win.appId ∨ (s.getPid handle).bind s.appScopeOf = some path := by
        simp [hpaths]
      have hidle : Idle (s.ask paths true) := idle_ask h
      have hresume : (resume win.appId (s.ask paths true)).2.freeze (s.scopePath win.appId) =
          false ↔ CaughtUp s (s.scopePath win.appId) := resume_iff hidle
      have hother (path : Text) (hne : path ≠ s.scopePath win.appId) :
          (resume win.appId (s.ask paths true)).2.freeze path = s.freeze path :=
        freeze_resume_of_ne (s := s.ask paths true) hne
      constructor
      · intro hall win' hwin'
        cases hwin'
        refine ⟨hresume.mp (hall _ ((hmem _).mpr (.inl rfl))), fun path hpath => ?_⟩
        by_cases hne : path = s.scopePath win.appId
        · exact .inl hne
        · rw [← hother path hne]
          exact .inr (hall path ((hmem path).mpr (.inr hpath)))
      · intro htimely path hpath
        obtain ⟨hcaught, hscope⟩ := htimely win rfl
        have hthawed := hresume.mpr hcaught
        by_cases hne : path = s.scopePath win.appId
        · rw [hne]
          exact hthawed
        · rw [hother path hne]
          exact (hscope path (((hmem path).mp hpath).resolve_left hne)).resolve_left hne
  · rw [if_neg havailable]
    have hfreeze := h (by simpa using havailable)
    refine ⟨fun _ win _ => ⟨fun hc => ?_, fun path _ => .inr (hfreeze path)⟩, fun _ => ?_⟩
    · rw [hfreeze] at hc
      cases hc
    · rw [resumes_ask_iff hr (.of_eq rfl rfl fun _ => rfl)]
      exact fun path _ => hfreeze path

/-- **One event.** What was asked to be resumed is thawed after the event exactly when the event is
timely. -/
theorem resumes_step (h : Idle s) (hr : Resumes s) (e : Event) :
    Resumes (step s e) ↔ Timely s e := by
  cases e with
  | paused appId => exact ⟨fun _ => trivial, fun _ => hr.pause⟩
  | resumed appId =>
    rw [step, resumes_ask_iff hr keeps_resume, List.forall_mem_singleton]
    exact resume_iff (idle_ask h)
  | resumeRequested handle => exact requested_iff h hr
  | _ => exact ⟨fun _ => trivial, fun _ => hr.keep (keeps_step _ (by simp) (by simp) (by simp))⟩

/-- **Resuming applications.** In every state of a run, what was last asked to be resumed is thawed,
exactly when nothing is asked to be resumed before the kernel has caught up with the pause, and no
request is for a window whose process is in a frozen scope that its id does not name. -/
theorem resumes_iff (available : Bool) (session slice : Text) (events : List Event) :
    (∀ events', events' <+: events → Resumes (run step { available, session, slice } events')) ↔
      Guarded step Timely { available, session, slice } events :=
  guarded_iff_forall_prefix (I := Idle) (fun _ e h _ => idle_step h e)
    (fun _ e h hr => resumes_step h hr e) (fun _ _ => rfl)
    (resumes_iff_freeze.mpr fun _ _ => rfl) events

/-- The application is resumed before the kernel says that it is frozen. -/
theorem not_resumes : ¬∀ events, Resumes (run step
    { available := true
      session := ofString "/user.slice/user-1000.slice/session-2.scope"
      slice := ofString "/user.slice/user-1000.slice" } events) := by
  intro h
  have hfreeze := (h [.launched { pid := 7, parent := 2, cgroup := [] } (ofString "a.desktop") true,
    .paused (ofString "a"), .resumed (ofString "a")]).freeze
    (ofString "/user.slice/user-1000.slice/app-a.scope") (by decide)
  exact absurd hfreeze (by decide)

end AppPause

end SingularityShell
