import SingularityShell.Xsettings.Model

/-!
# What the supervisor keeps

There is one child at most and one timer of each kind, and an update is read in the end. Two orders
of events break this: a reload that starts the child while a timer for a restart is pending, and an
update just before the exit at which the supervisor gives up.

## Main definitions

* `Xsettings.Supervised` — what is meant by supervision
* `Xsettings.Regular` — an exit that is noticed in time

## Main results

* `Xsettings.supervised_of_regular` — supervision, in every run of regular steps
* `Xsettings.seen_onRestart`, `Xsettings.seen_onReload` — what a pending timer leads to
* `Xsettings.not_supervised` — a reload between an exit and the restart
-/

namespace SingularityShell

namespace Xsettings

variable {s : World} {e : Env}

/-! ### What is meant -/

/-- What has happened since the last reload. -/
def since (log : List Entry) : List Entry := log.takeWhile (· ≠ .reloaded)

/-- The exits of a log, whether they were quick. -/
def exits (log : List Entry) : List Bool :=
  log.filterMap fun
    | .exited quick => some quick
    | _ => none

/-- Five quick exits have followed each other. -/
def Spent (log : List Entry) : Prop := List.replicate maxQuickExits true <:+: exits (since log)

/-- The timers that belong to the id that is kept of them. -/
def sources (id : ℕ) : List ℕ := if id = 0 then [] else [id]

/-- The update that has not been read will be, when a timer expires or once the end of the child is
noticed. -/
def Awaited (s : World) : Prop :=
  match s.child with
  | none => s.restarts ≠ []
  | some proc => proc ∈ s.running ∧ s.reloads ≠ [] ∨ proc ∈ s.ended

structure Supervised (s : World) : Prop where
  running : s.running.length ≤ 1
  stopped : ∀ older, .started :: older <:+ s.log → .stopped ∉ since older
  restarts : s.restarts.map Timer.id = sources s.restartSource
  reloads : s.reloads.map Timer.id = sources s.reloadSource
  spent : ∀ older, .started :: older <:+ s.log → ¬Spent older
  /-- A child that cannot be started does not read the file. -/
  read : s.version ≠ s.seen → s.stopping = false → ¬(s.child = none ∧ s.failed = true) → Awaited s

/-- The end of the child is noticed when no restart is pending, and with nothing left to read if the
supervisor gives up on it. -/
def Regular (s : World) : Event → Prop
  | .noticed proc => proc ∈ s.ended → s.child = some proc → s.stopping = false →
    s.restartSource = 0 ∧
      (quick s = true → maxQuickExits ≤ s.quickExits + 1 → s.version = s.seen)
  | _ => True

/-! ### Logs -/

variable {log : List Entry}

theorem since_reloaded : since (.reloaded :: log) = [] := List.takeWhile_cons_of_neg (by simp)

theorem since_cons {x : Entry} (h : x ≠ .reloaded) : since (x :: log) = x :: since log :=
  List.takeWhile_cons_of_pos (by simpa using h)

theorem not_spent_reloaded : ¬Spent (.reloaded :: log) := by
  rw [Spent, since_reloaded]
  exact fun h => absurd (List.infix_nil.mp h) (by decide)

/-- The exits at the end of a log are counted, as long as it is not stopped. -/
def Counted (s : World) : Prop :=
  ∀ k, List.replicate k true <+: exits (since s.log) → k ≤ s.quickExits ∨ s.stopping = true

/-- What holds of the log of each state. -/
structure Logged (s : World) : Prop where
  stopped : ∀ older, .started :: older <:+ s.log → .stopped ∉ since older
  spent : ∀ older, .started :: older <:+ s.log → ¬Spent older
  stopping : .stopped ∈ since s.log → s.stopping = true
  counted : Counted s
  /-- After five exits nothing is pending that could start the child. -/
  gone : Spent s.log → s.stopping = true ∨ s.child = none ∧ s.restartSource = 0

/-! ### The invariant -/

/-- The child, the timers and the log of a state that regular steps have led to. -/
structure Core (s : World) : Prop extends Logged s where
  children : s.running ++ s.ended = s.child.toList
  restarts : s.restarts.map Timer.id = sources s.restartSource
  reloads : s.reloads.map Timer.id = sources s.reloadSource
  next : 0 < s.nextSource
  idle : s.child = none → s.reloadSource = 0

/-- What has not been read has a timer. -/
def Answered (s : World) : Prop :=
  s.version ≠ s.seen → s.stopping = false →
    (s.child = none → s.failed = false → s.restartSource ≠ 0) ∧
      ∀ proc, s.child = some proc → proc ∈ s.running → s.reloadSource ≠ 0

structure Kept (s : World) : Prop extends Core s where
  answered : Answered s

/-- Entries that are no exits leave the exits as they are. -/
theorem exits_cons {x : Entry} (h : ∀ quick, x ≠ .exited quick) : exits (x :: log) = exits log := by
  cases x with
  | exited quick => exact absurd rfl (h quick)
  | _ => rfl

theorem started_suffix_cons {x : Entry} {P : List Entry → Prop}
    (h : ∀ older, .started :: older <:+ log → P older) (hx : x = .started → P log) :
    ∀ older, .started :: older <:+ x :: log → P older := by
  rintro older hsuffix
  rcases List.suffix_cons_iff.mp hsuffix with he | hs
  · obtain ⟨rfl, rfl⟩ := List.cons.inj he
    exact hx rfl
  · exact h older hs

theorem filter_sources {timers : List Timer} {id : ℕ} (h : timers.map Timer.id = sources id) :
    timers.filter (·.id ≠ id) = [] := by
  rw [List.filter_eq_nil_iff]
  intro t ht
  have hmem : t.id ∈ sources id := h ▸ List.mem_map_of_mem ht
  rw [sources] at hmem
  split_ifs at hmem with h0
  · cases hmem
  · simpa using hmem

/-- The timer that expires is the one that is known. -/
theorem source_of_mem {timers : List Timer} {id source : ℕ}
    (h : timers.map Timer.id = sources source) (hmem : ∃ t ∈ timers, t.id = id ∧ t.due ≤ s.now) :
    source = id ∧ source ≠ 0 := by
  obtain ⟨t, ht, rfl, -⟩ := hmem
  have hid : t.id ∈ sources source := h ▸ List.mem_map_of_mem ht
  rw [sources] at hid
  split_ifs at hid with h0
  · cases hid
  · exact ⟨(List.mem_singleton.mp hid).symm, h0⟩

theorem sources_ne {timers : List Timer} {source : ℕ} (h : timers.map Timer.id = sources source)
    (hne : source ≠ 0) : timers ≠ [] := by
  rintro rfl
  rw [sources, if_neg hne] at h
  cases h

theorem Kept.supervised (h : Kept s) : Supervised s where
  running := by
    have hlen : (s.running ++ s.ended).length ≤ 1 := by
      rw [h.children]
      cases s.child <;> simp
    rw [List.length_append] at hlen
    omega
  stopped := h.stopped
  restarts := h.restarts
  reloads := h.reloads
  spent := h.spent
  read hversion hstopping hfailed := by
    obtain ⟨hnone, hsome⟩ := h.answered hversion hstopping
    rw [Awaited]
    cases hchild : s.child with
    | none =>
      have hf : s.failed = false := by simpa [hchild] using hfailed
      exact sources_ne h.restarts (hnone hchild hf)
    | some proc =>
      have hmem : proc ∈ s.running ++ s.ended := by
        rw [h.children, hchild]
        exact List.mem_singleton_self proc
      rcases List.mem_append.mp hmem with hrun | hend
      · exact .inl ⟨hrun, sources_ne h.reloads (hsome proc hchild hrun)⟩
      · exact .inr hend

/-! ### Starting a child -/

/-- What `start` does, if anything. -/
theorem start_cases (e : Env) (s : World) :
    (s.child ≠ none ∨ s.stopping = true) ∧ start e s = s ∨
    s.child = none ∧ s.stopping = false ∧ e.able = false ∧ start e s = { s with failed := true } ∨
    s.child = none ∧ s.stopping = false ∧ e.able = true ∧ start e s =
      { s with
        child := some s.nextChild
        startedAt := s.now
        running := s.running ++ [s.nextChild]
        nextChild := s.nextChild + 1
        seen := s.version
        failed := false
        log := .started :: s.log } := by
  rw [start, Env.able]
  cases hchild : s.child with
  | some proc => exact .inl ⟨.inl (by simp), rfl⟩
  | none =>
    cases hstopping : s.stopping with
    | true => exact .inl ⟨.inr rfl, rfl⟩
    | false =>
      cases e.program with
      | false => exact .inr (.inl ⟨rfl, rfl, rfl, rfl⟩)
      | true =>
        cases e.display with
        | false => exact .inr (.inl ⟨rfl, rfl, rfl, rfl⟩)
        | true =>
          cases e.spawns with
          | false => exact .inr (.inl ⟨rfl, rfl, rfl, rfl⟩)
          | true => exact .inr (.inr ⟨rfl, rfl, rfl, rfl⟩)

theorem core_start (h : Core s) (e : Env)
    (hspent : s.child = none → s.stopping = false → ¬Spent s.log) : Core (start e s) := by
  rcases start_cases e s with ⟨-, he⟩ | ⟨-, -, -, he⟩ | ⟨hchild, hstopping, -, he⟩
  · rwa [he]
  · rw [he]
    exact ⟨⟨h.stopped, h.spent, h.stopping, h.counted, h.gone⟩, h.children, h.restarts, h.reloads,
      h.next, h.idle⟩
  · rw [he]
    have hempty : s.running ++ s.ended = [] := by rw [h.children, hchild]; rfl
    obtain ⟨hrunning, hended⟩ := List.append_eq_nil_iff.mp hempty
    have hsince : since (.started :: s.log) = .started :: since s.log := since_cons (by simp)
    have hexits : exits (since (.started :: s.log)) = exits (since s.log) := by
      rw [hsince, exits_cons (by simp)]
    refine ⟨⟨?_, ?_, ?_, ?_, ?_⟩, ?_, h.restarts, h.reloads, h.next, nofun⟩
    · refine started_suffix_cons h.stopped fun _ hmem => ?_
      exact absurd (h.stopping hmem) (by simp [hstopping])
    · exact started_suffix_cons h.spent fun _ => hspent hchild hstopping
    · intro hmem
      rw [hsince] at hmem
      exact h.stopping ((List.mem_cons.mp hmem).resolve_left (by simp))
    · intro k hk
      rw [hexits] at hk
      exact h.counted k hk
    · intro hsp
      rw [Spent, hexits] at hsp
      exact absurd hsp (hspent hchild hstopping)
    · dsimp only
      rw [hrunning, hended]
      rfl

/-- Once `start` has been called there is nothing left that a restart would read. -/
theorem answered_start (e : Env) (h : s.child ≠ none → Answered s) : Answered (start e s) := by
  rcases start_cases e s with ⟨hstays, he⟩ | ⟨hchild, -, -, he⟩ | ⟨-, -, -, he⟩
  · rw [he]
    rcases hstays with hchild | hstopping
    · exact h hchild
    · exact fun _ hs => absurd (hstopping.symm.trans hs) (by decide)
  · rw [he]
    exact fun _ _ => ⟨fun _ hf => absurd hf (by simp),
      fun proc hp => absurd (hchild.symm.trans hp) (by simp)⟩
  · rw [he]
    exact fun hv => absurd rfl hv

/-! ### Methods -/

/-- A timer that is added where there was none is the only one. -/
theorem map_append_sources {timers : List Timer} {source : ℕ}
    (h : timers.map Timer.id = sources 0) (hpos : 0 < source) (due : ℕ) :
    (timers ++ [Timer.mk source due]).map Timer.id = sources source := by
  rw [List.map_append, h, sources, sources, if_pos rfl, if_neg (Nat.ne_of_gt hpos)]
  rfl

theorem kept_reload (h : Core s) (version : ℕ) (e : Env) :
    Kept (reload e { s with version := version }) := by
  have hcounted : ∀ k, List.replicate k true <+: exits (since (.reloaded :: s.log)) → k = 0 := by
    intro k hk
    rw [since_reloaded] at hk
    have hlen := hk.length_le
    rw [List.length_replicate] at hlen
    exact Nat.le_zero.mp hlen
  have hstops : .stopped ∉ since (.reloaded :: s.log) := since_reloaded ▸ List.not_mem_nil
  have hlogged : ∀ t : World, t.log = .reloaded :: s.log → Logged t := by
    intro t ht
    refine ⟨?_, ?_, ?_, fun k hk => ?_, fun hsp => ?_⟩
    · exact ht ▸ started_suffix_cons h.stopped nofun
    · exact ht ▸ started_suffix_cons h.spent nofun
    · exact fun hm => absurd (ht ▸ hm) hstops
    · exact .inl (hcounted k (ht ▸ hk) ▸ Nat.zero_le _)
    · exact absurd (ht ▸ hsp) not_spent_reloaded
  rw [reload]
  dsimp only
  by_cases hchild : s.child = none
  · rw [if_pos (by rw [hchild]; rfl)]
    have hcore : Core { s with
        version := version, stopping := false, log := .reloaded :: s.log, quickExits := 0 } :=
      ⟨hlogged _ rfl, h.children, h.restarts, h.reloads, h.next, h.idle⟩
    exact ⟨core_start hcore e fun _ _ => not_spent_reloaded,
      answered_start e fun hne => absurd hchild hne⟩
  · rw [if_neg (by simpa using hchild)]
    by_cases hsource : s.reloadSource ≠ 0
    · rw [if_pos hsource]
      exact ⟨⟨hlogged _ rfl, h.children, h.restarts, h.reloads, h.next,
        fun hn => absurd hn hchild⟩,
        fun _ _ => ⟨fun hn => absurd hn hchild, fun _ _ _ => hsource⟩⟩
    · rw [if_neg hsource]
      have hreloads : s.reloads.map Timer.id = sources 0 := not_not.mp hsource ▸ h.reloads
      refine ⟨⟨hlogged _ rfl, h.children, h.restarts, map_append_sources hreloads h.next _,
        Nat.succ_pos _, fun hn => absurd hn hchild⟩, fun _ _ => ?_⟩
      exact ⟨fun hn => absurd hn hchild, fun _ _ _ => Nat.ne_of_gt h.next⟩

theorem kept_stop (h : Kept s) : Kept (stop s) := by
  have hsince : since (.stopped :: s.log) = .stopped :: since s.log := since_cons (by simp)
  refine ⟨⟨⟨started_suffix_cons h.stopped nofun, started_suffix_cons h.spent nofun, fun _ => rfl,
    fun _ _ => .inr rfl, fun _ => .inl rfl⟩, h.children, ?_, ?_, h.next, fun _ => rfl⟩,
    fun _ hs => absurd hs (by simp [stop])⟩
  · rw [stop]
    dsimp only
    rw [filter_sources h.restarts]
    rfl
  · rw [stop]
    dsimp only
    rw [filter_sources h.reloads]
    rfl

theorem kept_onChildExit {proc : ℕ} (h : Kept s) (hmem : proc ∈ s.ended)
    (hok : Regular s (.noticed proc)) :
    Kept (onChildExit proc { s with ended := s.ended.erase proc }) := by
  have hchild : s.child = some proc := by
    have : proc ∈ s.child.toList := h.children ▸ List.mem_append_right _ hmem
    exact Option.mem_toList.mp this
  have hchildren : s.running ++ s.ended.erase proc = [] := by
    have hlist : s.running ++ s.ended = [proc] := by rw [h.children, hchild]; rfl
    rcases List.append_eq_cons_iff.mp hlist with ⟨hr, he⟩ | ⟨as, hr, he⟩
    · rw [hr, he]
      simp
    · have hnil := List.append_eq_nil_iff.mp he.symm
      rw [hnil.2] at hmem
      cases hmem
  have hsince : ∀ b, since (.exited b :: s.log) = .exited b :: since s.log := fun b =>
    since_cons (by simp)
  have hexits : ∀ b, exits (since (.exited b :: s.log)) = b :: exits (since s.log) := fun b => by
    rw [hsince]
    rfl
  have hstopped : ∀ b, .stopped ∈ since (.exited b :: s.log) → s.stopping = true := by
    intro b hm
    rw [hsince] at hm
    exact h.stopping ((List.mem_cons.mp hm).resolve_left (by simp))
  rw [onChildExit, if_neg (not_not.mpr hchild)]
  dsimp only
  rw [filter_sources h.reloads]
  by_cases hstopping : s.stopping = true
  · rw [if_pos hstopping]
    refine ⟨⟨⟨started_suffix_cons h.stopped nofun, started_suffix_cons h.spent nofun,
      fun _ => hstopping, fun _ _ => .inr hstopping, fun _ => .inl hstopping⟩, hchildren,
      h.restarts, rfl, h.next, fun _ => rfl⟩,
      fun _ hs => absurd (hstopping.symm.trans hs) (by decide)⟩
  · rw [Bool.not_eq_true] at hstopping
    obtain ⟨hsource, hread⟩ := hok hmem hchild hstopping
    have hrestarts : s.restarts.map Timer.id = sources 0 := hsource ▸ h.restarts
    obtain ⟨n, hn⟩ : ∃ n, n = if quick s then s.quickExits + 1 else 0 := ⟨_, rfl⟩
    have hcounted : ∀ k, List.replicate k true <+: quick s :: exits (since s.log) → k ≤ n := by
      intro k hk
      cases k with
      | zero => exact Nat.zero_le n
      | succ k =>
        obtain ⟨htrue, htail⟩ := List.cons_prefix_cons.mp (List.replicate_succ ▸ hk)
        have hle := (h.counted k htail).resolve_right (by simp [hstopping])
        rw [hn, ← htrue, if_pos rfl]
        omega
    have hspent : Spent (.exited (quick s) :: s.log) → maxQuickExits ≤ n := by
      intro hsp
      rw [Spent, hexits] at hsp
      rcases List.infix_cons_iff.mp hsp with hpre | hinfix
      · exact hcounted _ hpre
      · rcases h.gone hinfix with hs | hs
        · exact absurd (hstopping.symm.trans hs) (by decide)
        · exact absurd (hchild.symm.trans hs.1) (by simp)
    have hlogged : ∀ t : World, t.log = .exited (quick s) :: s.log → t.quickExits = n →
        (maxQuickExits ≤ n → t.child = none ∧ t.restartSource = 0) → Logged t := by
      intro t ht hq hgone
      refine ⟨ht ▸ started_suffix_cons h.stopped nofun, ht ▸ started_suffix_cons h.spent nofun,
        fun hm => ?_, fun k hk => .inl ?_, fun hsp => .inr (hgone (hspent (ht ▸ hsp)))⟩
      · exact absurd (hstopping.symm.trans (hstopped _ (ht ▸ hm))) (by decide)
      · rw [hq]
        exact hcounted k (hexits _ ▸ ht ▸ hk)
    rw [if_neg (by simp [hstopping])]
    show Kept (if maxQuickExits ≤ (if quick s then s.quickExits + 1 else 0) then _ else _)
    rw [← hn]
    by_cases hgiven : maxQuickExits ≤ n
    · rw [if_pos hgiven]
      have hversion : s.version = s.seen := by
        by_cases hq : quick s = true
        · rw [if_pos hq] at hn
          exact hread hq (hn ▸ hgiven)
        · rw [if_neg hq] at hn
          exact absurd (hn ▸ hgiven) (by decide)
      exact ⟨⟨hlogged _ rfl hn.symm fun _ => ⟨rfl, hsource⟩, hchildren, h.restarts, rfl, h.next,
        fun _ => rfl⟩, fun hne => absurd hversion hne⟩
    · rw [if_neg hgiven]
      exact ⟨⟨hlogged _ rfl hn.symm fun hg => absurd hg hgiven, hchildren,
        map_append_sources hrestarts h.next _, rfl, Nat.succ_pos _, fun _ => rfl⟩,
        fun _ _ => ⟨fun _ _ => Nat.ne_of_gt h.next, nofun⟩⟩

/-! ### Timers -/

theorem kept_onRestart {id : ℕ} (h : Kept s) (e : Env)
    (hmem : ∃ t ∈ s.restarts, t.id = id ∧ t.due ≤ s.now) : Kept (onRestart id e s) := by
  obtain ⟨rfl, hne⟩ := source_of_mem h.restarts hmem
  have hgone : Spent s.log → s.stopping = true := fun hsp =>
    (h.gone hsp).resolve_right fun hg => hne hg.2
  have hcore : Core { s with
      restarts := s.restarts.filter (·.id ≠ s.restartSource), restartSource := 0 } := by
    refine ⟨⟨h.stopped, h.spent, h.stopping, h.counted, fun hsp => .inl (hgone hsp)⟩,
      h.children, ?_, h.reloads, h.next, h.idle⟩
    dsimp only
    rw [filter_sources h.restarts]
    rfl
  refine ⟨core_start hcore e fun _ hs hsp => ?_, answered_start e fun hchild hv hs => ?_⟩
  · exact absurd ((hgone hsp).symm.trans hs) (by decide)
  · exact ⟨fun hn => absurd hn hchild, (h.answered hv hs).2⟩

/-- A timer for a restart makes the file be read where a child can be started. -/
theorem seen_onRestart {id : ℕ} (hable : e.able = true) (hchild : s.child = none)
    (hstopping : s.stopping = false) : (onRestart id e s).seen = s.version := by
  rw [onRestart]
  obtain ⟨t, ht⟩ : ∃ t, t = { s with
    restarts := s.restarts.filter (·.id ≠ id), restartSource := 0 } := ⟨_, rfl⟩
  have hsame : t.child = s.child ∧ t.stopping = s.stopping ∧ t.version = s.version := by
    rw [ht]
    exact ⟨rfl, rfl, rfl⟩
  rw [← ht, ← hsame.2.2]
  rcases start_cases e t with ⟨hc | hs, -⟩ | ⟨-, -, he, -⟩ | ⟨-, -, -, he⟩
  · exact absurd (hsame.1.trans hchild) hc
  · exact absurd (hs.symm.trans (hsame.2.1.trans hstopping)) (by decide)
  · exact absurd (hable.symm.trans he) (by decide)
  · rw [he]

theorem onReload_eq {id proc : ℕ} (hchild : s.child = some proc) : onReload id e s =
    if proc ∈ s.running then
      { s with reloads := s.reloads.filter (·.id ≠ id), reloadSource := 0, seen := s.version }
    else { s with reloads := s.reloads.filter (·.id ≠ id), reloadSource := 0 } := by
  simp only [onReload, hchild]

theorem kept_onReload {id : ℕ} (h : Kept s) (e : Env)
    (hmem : ∃ t ∈ s.reloads, t.id = id ∧ t.due ≤ s.now) : Kept (onReload id e s) := by
  obtain ⟨rfl, hne⟩ := source_of_mem h.reloads hmem
  obtain ⟨proc, hchild⟩ := Option.ne_none_iff_exists'.mp fun hn => hne (h.idle hn)
  have hreloads : (s.reloads.filter (·.id ≠ s.reloadSource)).map Timer.id = sources 0 := by
    rw [filter_sources h.reloads]
    rfl
  rw [onReload_eq hchild]
  by_cases hrun : proc ∈ s.running
  · rw [if_pos hrun]
    exact ⟨⟨⟨h.stopped, h.spent, h.stopping, h.counted, h.gone⟩, h.children, h.restarts, hreloads,
      h.next, fun _ => rfl⟩, fun hv => absurd rfl hv⟩
  · rw [if_neg hrun]
    refine ⟨⟨⟨h.stopped, h.spent, h.stopping, h.counted, h.gone⟩, h.children, h.restarts, hreloads,
      h.next, fun _ => rfl⟩, fun hv hs => ⟨(h.answered hv hs).1, fun p hp hr => ?_⟩⟩
    dsimp only at hp hr
    obtain rfl := Option.some.inj (hchild.symm.trans hp)
    exact absurd hr hrun

/-- A timer for a reload makes a child that runs read the file. -/
theorem seen_onReload {id proc : ℕ} (hchild : s.child = some proc) (hrun : proc ∈ s.running) :
    (onReload id e s).seen = s.version := by
  rw [onReload_eq hchild, if_pos hrun]

theorem kept_dies {proc : ℕ} (h : Kept s) (hmem : proc ∈ s.running) :
    Kept { s with running := s.running.erase proc, ended := s.ended ++ [proc] } := by
  have hchildren : s.running.erase proc ++ (s.ended ++ [proc]) = s.child.toList := by
    rw [← h.children]
    cases hchild : s.child with
    | none =>
      have hnil : s.running ++ s.ended = [] := by rw [h.children, hchild]; rfl
      rw [(List.append_eq_nil_iff.mp hnil).1] at hmem
      cases hmem
    | some p =>
      have hlist : s.running ++ s.ended = [p] := by rw [h.children, hchild]; rfl
      rcases List.append_eq_cons_iff.mp hlist with ⟨hr, -⟩ | ⟨as, hr, he⟩
      · rw [hr] at hmem
        cases hmem
      · obtain ⟨rfl, hended⟩ := List.append_eq_nil_iff.mp he.symm
        rw [hr] at hmem
        obtain rfl := List.mem_singleton.mp hmem
        rw [hr, hended]
        simp
  exact ⟨⟨⟨h.stopped, h.spent, h.stopping, h.counted, h.gone⟩, hchildren, h.restarts, h.reloads,
    h.next, h.idle⟩, fun hv hs => ⟨(h.answered hv hs).1, fun p hp hr =>
      (h.answered hv hs).2 p hp (List.mem_of_mem_erase hr)⟩⟩

/-! ### Runs -/

/-- **The step lemma.** -/
theorem kept_step (h : Kept s) {ev : Event} (hok : Regular s ev) : Kept (step s ev) := by
  cases ev with
  | update writes e =>
    cases writes with
    | false => exact h
    | true => exact kept_reload h.toCore (s.version + 1) e
  | reload e => exact kept_reload h.toCore s.version e
  | stop => exact kept_stop h
  | restart id e =>
    rw [step]
    split_ifs with hmem
    · exact kept_onRestart h e hmem
    · exact h
  | hangUp id e =>
    rw [step]
    split_ifs with hmem
    · exact kept_onReload h e hmem
    · exact h
  | dies proc =>
    rw [step]
    split_ifs with hmem
    · exact kept_dies h hmem
    · exact h
  | noticed proc =>
    rw [step]
    split_ifs with hmem
    · exact kept_onChildExit h hmem hok
    · exact h
  | wait usec =>
    exact ⟨⟨⟨h.stopped, h.spent, h.stopping, h.counted, h.gone⟩, h.children, h.restarts, h.reloads,
      h.next, h.idle⟩, h.answered⟩

theorem kept_init : Kept {} := by
  have hnil : ∀ older : List Entry, ¬.started :: older <:+ [] := fun _ hs => by
    cases List.suffix_nil.mp hs
  refine ⟨⟨⟨fun older hs => absurd hs (hnil older), fun older hs => absurd hs (hnil older),
    fun hm => absurd hm List.not_mem_nil, fun k hk => .inl ?_, fun _ => .inr ⟨rfl, rfl⟩⟩,
    rfl, rfl, rfl, by decide, fun _ => rfl⟩, fun hv => absurd rfl hv⟩
  have hlen := hk.length_le
  rwa [List.length_replicate] at hlen

/-- **Supervision**, in every run in which no end of a child is noticed while a restart is pending,
nor with an update unread at the fifth quick exit. -/
theorem supervised_of_regular {events : List Event}
    (h : Transition.Guarded step Regular {} events) : Supervised (run events) :=
  (h.invariant (P := Kept) (fun _ _ hs he => kept_step hs he) kept_init).supervised

/-- The child crashes and is started again, reads an update and is stopped. -/
def served : List Event :=
  [.update true {}, .dies 0, .noticed 0, .wait 1000000, .restart 1 {}, .update true {},
    .wait 1150000, .hangUp 2 {}, .stop, .dies 1, .noticed 1]

theorem supervised_served : Supervised (run served) :=
  supervised_of_regular ⟨trivial, trivial, fun _ _ _ => ⟨rfl, fun _ h => absurd h (by decide)⟩,
    trivial, trivial, trivial, trivial, trivial, trivial, trivial,
    fun _ _ h => absurd h (by decide), trivial⟩

/-- The child ends twice, and in between a reload does not wait for the restart. -/
theorem not_supervised : ¬∀ events, Supervised (run events) := by
  intro h
  have hlast := (h [.update true {}, .dies 0, .noticed 0, .reload {}, .dies 1, .noticed 1]).restarts
  exact absurd hlast (by decide)

end Xsettings

end SingularityShell
