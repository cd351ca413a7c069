import SingularityShell.Vkbd.Model

/-!
# What is typed is what was queued

A run is pressed under the keymap that was uploaded for it, unless the layout is replaced between
the two steps, its upload fails, or its text cannot be made. A character that neither the layout nor
a keysym has is pressed for nothing.

## Main definitions

* `Vkbd.Faithful` — what the clients read is what was queued
* `Vkbd.Regular` — a step of the timer that has the keymap that it needs

## Main results

* `Vkbd.pressed_run` — a run that is pressed under its keymap is read as it stands
* `Vkbd.kept_runJob` — the step lemma
* `Vkbd.faithful_of_regular` — in a run of such steps, what is read is what was queued
-/

namespace SingularityShell

namespace Vkbd

variable (xkb : Xkb)

/-! ### The property -/

/-- What was typed of a text. -/
def Job.typed (job : Job) : List Char := job.chars.take (job.pos - job.dropped)

/-- The presses that the clients read are the characters of the queued texts that were not dropped,
each under the keymap in which its code was looked up, and each text takes finitely many steps. -/
structure Faithful (s : State) : Prop where
  texts : (s.finished ++ s.jobs).map Job.chars = s.queued
  complete : ∀ job ∈ s.finished, job.pos = job.chars.length
  decoded : s.seen.presses.map (Press.decode xkb) =
    ((s.finished ++ s.jobs).flatMap Job.typed).map newline
  current : ∀ p ∈ s.seen.presses, p.current = some p.source
  steps : ∀ job ∈ s.finished ++ s.jobs, job.steps ≤ 2 * job.chars.length
  timer : s.jobs ≠ [] → s.jobTimer = true

/-- The keymap that was uploaded last is that of the layout. -/
def Current (s : State) : Prop := s.seen.current = s.layout.map Map.layout

/-- The characters of the run of `upload_custom`. -/
def customRun (s : State) (job : Job) : List Char :=
  (job.chars.take (collect xkb s (job.chars.drop job.pos) [] job.pos).2).drop job.pos

/-- What `run_job` needs for the job at the head of the queue: when it presses keys of the layout,
the keymap of the layout is current or is uploaded now; when it uploads a keymap of its own, the
character is not in the layout, and each character of the run has a name. -/
def Supplied (alloc : Bool) (s : State) : Prop :=
  match s.jobs with
  | [] => True
  | job :: _ =>
    if s.runPending then s.runInLayout = true → Current s
    else
      match job.chars.drop job.pos with
      | [] => True
      | c :: _ =>
        if (layoutKey xkb s c).isSome ∧ s.layoutText.isSome then
          s.uploaded ≠ .layout → alloc = true ∨ Current s
        else alloc = true → layoutKey xkb s c = none ∧ ∀ c ∈ customRun xkb s job, Named c

/-- A step of the timer that has the keymap that it needs. -/
def Regular (s : State) : Event → Prop
  | .setLayout _ _ => True
  | .typeText text ready alloc => text ≠ [] → ready = true → s.jobTimer = false →
      Supplied xkb alloc
        { s with jobs := s.jobs ++ [{ chars := text }], queued := s.queued ++ [text] }
  | .timer alloc => s.jobTimer = true → Supplied xkb alloc s

/-! ### What is seen of what is sent -/

theorem seen_append (s : State) (requests : List Request) :
    State.seen { s with sent := s.sent ++ requests } = requests.foldl Seen.observe s.seen :=
  List.foldl_append

theorem seen_press (code mask : UInt32) (source : Map) (s : State) :
    (press code mask source s).seen =
      ⟨s.seen.current, 0, s.seen.presses ++ [⟨s.seen.current, mask, code, source⟩]⟩ := by
  rw [press, List.append_assoc, seen_append]
  by_cases hmask : mask ≠ 0
  · rw [if_pos hmask]
    rfl
  · rw [if_neg hmask, not_not.mp hmask]
    rfl

/-! ### A run under its keymap -/

/-- The characters can be pressed under the keymap. -/
def Types (s : State) (cs : List Char) : Map → Prop
  | .layout k => s.runInLayout = true ∧
      ∀ c ∈ cs, (lookup (layoutTable xkb k) (newline c)).isSome = true
  | .custom file => s.runInLayout = false ∧ file = makeKeymap s.batchKeys ∧
      s.batchKeys.length ≤ batchKeys ∧ ∀ c ∈ cs, c ∈ s.batchKeys ∧ Named c

variable {xkb}

theorem Types.tail {s : State} {c : Char} {cs : List Char} {map : Map}
    (h : Types xkb s (c :: cs) map) : Types xkb s cs map := by
  cases map with
  | layout k => exact ⟨h.1, fun d hd => h.2 d (List.mem_cons_of_mem c hd)⟩
  | custom file =>
    exact ⟨h.1, h.2.1, h.2.2.1, fun d hd => h.2.2.2 d (List.mem_cons_of_mem c hd)⟩

/-- A character is pressed with a key that gives it. -/
theorem pressChar_spec {s : State} {c : Char} {cs : List Char} {map : Map}
    (h : Types xkb s (c :: cs) map) (hlayout : ∀ k, map = .layout k → s.layout = some k) :
    ∃ code mask, pressChar xkb s c = press code mask map s ∧
      decodeKey xkb code mask map = newline c := by
  cases map with
  | layout k =>
    obtain ⟨hin, hkeys⟩ := h
    obtain ⟨key, hkey⟩ := Option.isSome_iff_exists.mp (hkeys c List.mem_cons_self)
    have hs : s.layout = some k := hlayout k rfl
    have hlookup : layoutKey xkb s c = some key := by
      rw [layoutKey, hs]
      exact hkey
    refine ⟨key.code, key.mask, ?_, decodeKey_layout xkb hkey⟩
    rw [pressChar, if_pos hin, hs, hlookup]
  | custom file =>
    obtain ⟨hin, rfl, hlen, hkeys⟩ := h
    obtain ⟨hmem, hnamed⟩ := hkeys c List.mem_cons_self
    have hi : s.batchKeys.idxOf c < s.batchKeys.length := List.idxOf_lt_length_iff.mpr hmem
    have hc : s.batchKeys[s.batchKeys.idxOf c] = c := List.getElem_idxOf hi
    refine ⟨UInt32.ofNat (s.batchKeys.idxOf c) + 1, 0, ?_, ?_⟩
    · rw [pressChar, if_neg (by rw [hin]; decide), batchIndex, if_pos hmem]
    · rw [decodeKey_custom xkb hlen hi (hc.symm ▸ hnamed), hc]

/-- **A run that is pressed under its keymap is read as it stands.** -/
theorem pressed_run {s : State} {cs : List Char} {map : Map} (h : Types xkb s cs map)
    (hcurrent : s.seen.current = some map) (hlayout : ∀ k, map = .layout k → s.layout = some k) :
    ∃ sent presses, cs.foldl (pressChar xkb) s = { s with sent } ∧
      (State.seen { s with sent }).current = some map ∧
      (State.seen { s with sent }).presses = s.seen.presses ++ presses ∧
      presses.map (Press.decode xkb) = cs.map newline ∧
      ∀ p ∈ presses, p.current = some p.source := by
  induction cs generalizing s with
  | nil => exact ⟨s.sent, [], rfl, hcurrent, (List.append_nil _).symm, rfl, fun _ hp => nomatch hp⟩
  | cons c cs ih =>
    obtain ⟨code, mask, hpress, hdecode⟩ := pressChar_spec h hlayout
    have hseen := seen_press code mask map s
    have htail : Types xkb (press code mask map s) cs map := by
      cases map with
      | layout k => exact h.tail
      | custom file => exact h.tail
    have hcurrent' : (press code mask map s).seen.current = some map := by rw [hseen, hcurrent]
    obtain ⟨sent, presses, hfold, hcur, hpresses, hmap, hsource⟩ := ih htail hcurrent' hlayout
    refine ⟨sent, ⟨some map, mask, code, map⟩ :: presses, ?_, hcur, ?_, ?_, ?_⟩
    · rw [List.foldl_cons, hpress, hfold]
      rfl
    · refine hpresses.trans ?_
      rw [hseen, hcurrent, List.append_assoc]
      rfl
    · rw [List.map_cons, List.map_cons, hmap]
      exact congrArg (· :: _) hdecode
    · rintro p hp
      rcases List.mem_cons.mp hp with rfl | hp
      · rfl
      · exact hsource p hp

/-! ### The invariant -/

/-- A text that was queued and is not typed yet. -/
structure Job.Waiting (job : Job) : Prop where
  chars : job.chars ≠ []
  pos : job.pos = 0
  steps : job.steps = 0
  dropped : job.dropped = 0

/-- The text at the head of the queue, for which a keymap was uploaded or was not. -/
structure Job.Started (job : Job) (pending : Bool) : Prop where
  pos : job.pos < job.chars.length
  steps : job.steps ≤ 2 * job.pos + pending.toNat
  dropped : job.dropped = 0

theorem Job.Waiting.started {job : Job} (h : job.Waiting) : job.Started false := by
  refine ⟨?_, ?_, h.dropped⟩
  · rw [h.pos]
    exact List.length_pos_iff.mpr h.chars
  · rw [h.steps]
    exact Nat.zero_le _

variable (xkb)

/-- What was sent, against the texts, of which `jobs` are left. -/
structure Log (s : State) (jobs : List Job) : Prop where
  texts : (s.finished ++ jobs).map Job.chars = s.queued
  finished : ∀ job ∈ s.finished, job.pos = job.chars.length ∧ job.steps ≤ 2 * job.chars.length
  decoded : s.seen.presses.map (Press.decode xkb) =
    ((s.finished ++ jobs).flatMap Job.typed).map newline
  current : ∀ p ∈ s.seen.presses, p.current = some p.source
  text : ∀ k, s.layoutText = some k → s.layout = some k
  layout : s.uploaded = .layout → ∃ k, s.layout = some k ∧ s.seen.current = some (.layout k)

/-- The run that waits can be pressed under the keymap that was uploaded for it. -/
structure Pending (s : State) (job : Job) : Prop where
  start : job.pos < s.runEnd
  stop : s.runEnd ≤ job.chars.length
  types : ∃ map, s.seen.current = some map ∧
    Types xkb s ((job.chars.take s.runEnd).drop job.pos) map

/-- What holds of the jobs that are left. -/
def Queue (s : State) : List Job → Prop
  | [] => s.runPending = false
  | job :: rest => job.Started s.runPending ∧ (∀ next ∈ rest, next.Waiting) ∧
      (s.runPending = true → Pending xkb s job)

structure Kept (s : State) : Prop where
  log : Log xkb s s.jobs
  queue : Queue xkb s s.jobs
  timer : s.jobTimer = !s.jobs.isEmpty

variable {xkb}

theorem Kept.faithful {s : State} (h : Kept xkb s) : Faithful xkb s := by
  refine ⟨h.log.texts, fun job hjob => (h.log.finished job hjob).1, h.log.decoded, h.log.current,
    fun job hjob => ?_, fun hjobs => ?_⟩
  · rcases List.mem_append.mp hjob with hdone | hleft
    · exact (h.log.finished job hdone).2
    · obtain ⟨jobs, hjobs⟩ : ∃ jobs, jobs = s.jobs := ⟨_, rfl⟩
      have hqueue := h.queue
      rw [← hjobs] at hleft hqueue
      cases jobs with
      | nil => cases hleft
      | cons first rest =>
        obtain ⟨hstarted, hwaiting, -⟩ := hqueue
        rcases List.mem_cons.mp hleft with rfl | hrest
        · have := hstarted.steps
          have := hstarted.pos
          have := Bool.toNat_le s.runPending
          omega
        · rw [(hwaiting job hrest).steps]
          exact Nat.zero_le _
  · rw [h.timer, List.isEmpty_eq_false_iff.mpr hjobs]
    rfl

/-! ### The end of a step -/

/-- The next job, if any, starts. -/
theorem queue_rest {s : State} {rest : List Job} (hrest : ∀ next ∈ rest, next.Waiting)
    (hpending : s.runPending = false) : Queue xkb s rest := by
  cases rest with
  | nil => exact hpending
  | cons next rest =>
    refine ⟨?_, fun job hjob => hrest job (List.mem_cons_of_mem next hjob), fun h => ?_⟩
    · rw [hpending]
      exact (hrest next List.mem_cons_self).started
    · rw [hpending] at h
      cases h

theorem kept_settle {s : State} {rest : List Job} {job : Job} (hlog : Log xkb s (job :: rest))
    (hrest : ∀ next ∈ rest, next.Waiting) (hpending : s.runPending = false)
    (hpos : job.pos ≤ job.chars.length) (hsteps : job.steps ≤ 2 * job.pos)
    (hdropped : job.pos < job.chars.length → job.dropped = 0) : Kept xkb (settle rest job s) := by
  have happend : s.finished ++ [job] ++ rest = s.finished ++ job :: rest := by
    rw [List.append_assoc]
    rfl
  rw [settle]
  split_ifs with hdone
  · refine ⟨⟨?_, fun j hj => ?_, ?_, hlog.current, hlog.text, hlog.layout⟩, ?_, rfl⟩
    · exact (congrArg _ happend).trans hlog.texts
    · rcases List.mem_append.mp hj with hold | hnew
      · exact hlog.finished j hold
      · rw [List.mem_singleton.mp hnew]
        exact ⟨Nat.le_antisymm hpos hdone, hsteps.trans (Nat.mul_le_mul_left 2 hpos)⟩
    · exact hlog.decoded.trans
        (congrArg (fun jobs => (jobs.flatMap Job.typed).map newline) happend.symm)
    · exact queue_rest hrest hpending
  · have hlt : job.pos < job.chars.length := Nat.lt_of_not_le hdone
    refine ⟨⟨hlog.texts, hlog.finished, hlog.decoded, hlog.current, hlog.text, hlog.layout⟩,
      ⟨⟨hlt, hsteps.trans (Nat.le_add_right _ _), hdropped hlt⟩, hrest, fun h => ?_⟩, rfl⟩
    rw [show s.runPending = true from h] at hpending
    cases hpending

/-! ### Pressing -/

theorem typed_waiting {rest : List Job} (hrest : ∀ next ∈ rest, next.Waiting) :
    rest.flatMap Job.typed = [] := by
  refine List.flatMap_eq_nil_iff.mpr fun next hnext => ?_
  rw [Job.typed, (hrest next hnext).pos, Nat.zero_sub, List.take_zero]

/-- A change of the job in hand of which the log does not tell. -/
theorem Log.replace {s : State} {job job' : Job} {rest : List Job} (h : Log xkb s (job :: rest))
    (hchars : job'.chars = job.chars) (htyped : job'.typed = job.typed) :
    Log xkb s (job' :: rest) := by
  refine ⟨?_, h.finished, ?_, h.current, h.text, h.layout⟩
  · rw [← h.texts, List.map_append, List.map_append, List.map_cons, List.map_cons, hchars]
  · rw [h.decoded, List.flatMap_append, List.flatMap_append, List.flatMap_cons, List.flatMap_cons,
      htyped]

/-- A run is pressed: what was typed of the job grows by the run. -/
theorem log_pressRun {s : State} {job : Job} {rest : List Job} {map : Map}
    (h : Log xkb s (job :: rest)) (hrest : ∀ next ∈ rest, next.Waiting) (hdropped : job.dropped = 0)
    (hstart : job.pos ≤ s.runEnd) (hcurrent : s.seen.current = some map)
    (htypes : Types xkb s ((job.chars.take s.runEnd).drop job.pos) map)
    (hlayout : ∀ k, map = .layout k → s.layout = some k) :
    ∃ sent, (pressRun xkb job s).2 = { s with sent } ∧
      Log xkb { s with sent } ({ job with pos := s.runEnd } :: rest) := by
  obtain ⟨sent, presses, hfold, hcur, hpresses, hmap, hsource⟩ :=
    pressed_run htypes hcurrent hlayout
  have htyped : Job.typed { job with pos := s.runEnd } =
      job.typed ++ (job.chars.take s.runEnd).drop job.pos := by
    have htake : job.chars.take job.pos = (job.chars.take s.runEnd).take job.pos := by
      rw [List.take_take, Nat.min_eq_left hstart]
    rw [Job.typed, Job.typed, hdropped, Nat.sub_zero, Nat.sub_zero, htake, List.take_append_drop]
  refine ⟨sent, hfold, ?_, h.finished, ?_, fun p hp => ?_, h.text, fun hup => ?_⟩
  · rw [← h.texts, List.map_append, List.map_append, List.map_cons, List.map_cons]
  · have hdecoded := h.decoded
    rw [List.flatMap_append, List.flatMap_cons, typed_waiting hrest, List.append_nil] at hdecoded
    rw [hpresses, List.map_append, hdecoded, hmap, List.flatMap_append, List.flatMap_cons, htyped,
      typed_waiting hrest, List.append_nil, ← List.map_append, List.append_assoc]
  · rw [hpresses] at hp
    exact (List.mem_append.mp hp).elim (h.current p) (hsource p)
  · obtain ⟨k, hk, hseen⟩ := h.layout hup
    exact ⟨k, hk, by rw [hcur, ← hcurrent, hseen]⟩

/-- A keymap is uploaded: nothing is pressed. -/
theorem log_upload {s : State} {jobs : List Job} (h : Log xkb s jobs) (map : Map) (up : Uploaded)
    (hup : up = .layout → ∃ k, s.layout = some k ∧ map = .layout k) :
    Log xkb { s with sent := s.sent ++ [.keymap map, .modifiers 0], uploaded := up } jobs := by
  have hseen : State.seen { s with sent := s.sent ++ [.keymap map, .modifiers 0], uploaded := up } =
      ⟨some map, 0, s.seen.presses⟩ := seen_append s _
  refine ⟨h.texts, h.finished, ?_, ?_, h.text, fun hlayout => ?_⟩
  · rw [hseen]
    exact h.decoded
  · rw [hseen]
    exact h.current
  · obtain ⟨k, hk, rfl⟩ := hup hlayout
    exact ⟨k, hk, by rw [hseen]⟩

/-! ### Where a run ends -/

/-- The run from a position on, when it is a prefix of what is left. -/
theorem slice_eq {chars run : List Char} {pos : ℕ} (h : run <+: chars.drop pos) :
    (chars.take (pos + run.length)).drop pos = run := by
  rw [List.drop_take, Nat.add_sub_cancel_left]
  exact (List.prefix_iff_eq_take.mp h).symm

theorem stop_le {chars run : List Char} {pos : ℕ} (h : run <+: chars.drop pos)
    (hpos : pos ≤ chars.length) : pos + run.length ≤ chars.length := by
  have hlen := h.length_le
  rw [List.length_drop] at hlen
  omega

variable (xkb) in
/-- The run of `upload_custom`, whose characters are in the batch. -/
theorem collect_spec (s : State) (rest batch : List Char) (stop : ℕ) :
    (∃ run, run <+: rest ∧ (collect xkb s rest batch stop).2 = stop + run.length ∧
      ∀ c ∈ run, c ∈ (collect xkb s rest batch stop).1) ∧
    (∀ c ∈ batch, c ∈ (collect xkb s rest batch stop).1) ∧
    (batch.length ≤ batchKeys → (collect xkb s rest batch stop).1.length ≤ batchKeys) := by
  induction rest generalizing batch stop with
  | nil => exact ⟨⟨[], List.prefix_rfl, rfl, fun _ hc => nomatch hc⟩, fun _ hc => hc, id⟩
  | cons c rest ih =>
    have hstopped : (∃ run, run <+: c :: rest ∧ (batch, stop).2 = stop + run.length ∧
        ∀ d ∈ run, d ∈ batch) ∧ (∀ d ∈ batch, d ∈ batch) ∧
        (batch.length ≤ batchKeys → batch.length ≤ batchKeys) :=
      ⟨⟨[], List.nil_prefix, rfl, fun _ hd => nomatch hd⟩, fun _ hd => hd, id⟩
    rw [collect]
    split_ifs with hkey hmem hfull
    · exact hstopped
    · obtain ⟨⟨run, hpre, hstop, hrun⟩, hbatch, hlen⟩ := ih batch (stop + 1)
      refine ⟨⟨c :: run, List.cons_prefix_cons.mpr ⟨rfl, hpre⟩, ?_, ?_⟩, hbatch, hlen⟩
      · rw [hstop, List.length_cons]
        omega
      · exact List.forall_mem_cons.mpr ⟨hbatch c hmem, hrun⟩
    · exact hstopped
    · obtain ⟨⟨run, hpre, hstop, hrun⟩, hbatch, hlen⟩ := ih (batch ++ [c]) (stop + 1)
      refine ⟨⟨c :: run, List.cons_prefix_cons.mpr ⟨rfl, hpre⟩, ?_, ?_⟩, ?_, fun hle => hlen ?_⟩
      · rw [hstop, List.length_cons]
        omega
      · exact List.forall_mem_cons.mpr ⟨hbatch c (List.mem_append_right _ List.mem_cons_self), hrun⟩
      · exact fun d hd => hbatch d (List.mem_append_left _ hd)
      · rw [List.length_append, List.length_singleton]
        omega

theorem collect_congr {s s' : State} (h : s'.layout = s.layout) (rest batch : List Char)
    (stop : ℕ) : collect xkb s' rest batch stop = collect xkb s rest batch stop := by
  have hkey (c : Char) : layoutKey xkb s' c = layoutKey xkb s c := by rw [layoutKey, h, layoutKey]
  induction rest generalizing batch stop with
  | nil => rfl
  | cons c rest ih => rw [collect, collect, hkey, ih, ih]

theorem lt_collect {s : State} {c : Char} (hc : layoutKey xkb s c = none) (rest : List Char)
    (stop : ℕ) : stop < (collect xkb s (c :: rest) [] stop).2 := by
  have hfirst : collect xkb s (c :: rest) [] stop = collect xkb s rest [c] (stop + 1) := by
    rw [collect, if_neg (by rw [hc]; decide), if_neg List.not_mem_nil, if_neg (by decide)]
    rfl
  obtain ⟨⟨run, -, hstop, -⟩, -⟩ := collect_spec xkb s rest [c] (stop + 1)
  rw [hfirst, hstop]
  omega

/-! ### The steps of the timer -/

/-- The run is pressed, and the job is at its end. -/
theorem kept_pressRun {s : State} {job : Job} {rest : List Job} {map : Map}
    (h : Log xkb s (job :: rest)) (hrest : ∀ next ∈ rest, next.Waiting) (hdropped : job.dropped = 0)
    (hpending : s.runPending = false) (hstart : job.pos < s.runEnd)
    (hstop : s.runEnd ≤ job.chars.length) (hsteps : job.steps ≤ 2 * job.pos + 2)
    (hcurrent : s.seen.current = some map)
    (htypes : Types xkb s ((job.chars.take s.runEnd).drop job.pos) map)
    (hlayout : ∀ k, map = .layout k → s.layout = some k) :
    Kept xkb (settle rest (pressRun xkb job s).1 (pressRun xkb job s).2) := by
  obtain ⟨sent, hpressed, hlog⟩ :=
    log_pressRun h hrest hdropped hstart.le hcurrent htypes hlayout
  rw [hpressed]
  refine kept_settle hlog hrest hpending hstop ?_ fun _ => hdropped
  show job.steps ≤ 2 * s.runEnd
  omega

/-- A character of the layout is at the head: its run is pressed, or its keymap is uploaded. -/
theorem kept_startLayout {s : State} {alloc : Bool} {job : Job} {rest : List Job} {c : Char}
    {cs : List Char} (h : Log xkb s (job :: rest)) (hrest : ∀ next ∈ rest, next.Waiting)
    (hdropped : job.dropped = 0) (hpending : s.runPending = false)
    (hpos : job.pos < job.chars.length)
    (hsteps : job.steps ≤ 2 * job.pos + 1) (hleft : job.chars.drop job.pos = c :: cs)
    (hkey : (layoutKey xkb s c).isSome = true) (htext : s.layoutText.isSome = true)
    (hok : s.uploaded ≠ .layout → alloc = true ∨ Current s) :
    Kept xkb (startLayout xkb alloc rest job s) := by
  obtain ⟨k, hk⟩ := Option.isSome_iff_exists.mp htext
  have hlayout : s.layout = some k := h.text k hk
  obtain ⟨run, hrun⟩ : ∃ run, run =
      (job.chars.drop job.pos).takeWhile fun c => (layoutKey xkb s c).isSome := ⟨_, rfl⟩
  have hpre : run <+: job.chars.drop job.pos := hrun ▸ List.takeWhile_prefix _
  have hend : layoutRun xkb job s = job.pos + run.length := by rw [layoutRun, hrun]
  have hne : 0 < run.length := by
    rw [hrun, hleft, List.takeWhile_cons, if_pos hkey]
    exact Nat.succ_pos _
  obtain ⟨s', hs'⟩ : ∃ s', s' = { s with runEnd := layoutRun xkb job s, runInLayout := true } :=
    ⟨_, rfl⟩
  have hlog : Log xkb s' (job :: rest) :=
    hs' ▸ ⟨h.texts, h.finished, h.decoded, h.current, h.text, h.layout⟩
  have hstart : job.pos < s'.runEnd := by
    rw [hs']
    show job.pos < layoutRun xkb job s
    omega
  have hstop : s'.runEnd ≤ job.chars.length := by
    rw [hs']
    show layoutRun xkb job s ≤ job.chars.length
    rw [hend]
    exact stop_le hpre hpos.le
  have htypes : Types xkb s' ((job.chars.take s'.runEnd).drop job.pos) (.layout k) := by
    rw [hs']
    refine ⟨rfl, fun d hd => ?_⟩
    rw [show (job.chars.take (layoutRun xkb job s)).drop job.pos = run from hend ▸ slice_eq hpre,
      hrun] at hd
    have hsome := List.mem_takeWhile_imp hd
    rw [layoutKey, hlayout] at hsome
    exact hsome
  have hlayout' : ∀ k', Map.layout k = .layout k' → s'.layout = some k' := by
    rintro k' hk'
    rw [hs', ← Map.layout.inj hk']
    exact hlayout
  rw [startLayout, ← hs']
  dsimp only
  have hupload : uploadLayout alloc s' = if alloc then
      (true, { s' with
        sent := s'.sent ++ [.keymap (.layout k), .modifiers 0], uploaded := .layout })
      else (false, s') := by
    rw [uploadLayout, show s'.layoutText = some k from hs' ▸ hk]
  have hpending' : s'.runPending = false := hs' ▸ hpending
  split_ifs with hwait
  · obtain rfl : alloc = true := by
      by_contra hfailed
      rw [hupload, if_neg hfailed] at hwait
      cases hwait.2
    rw [hupload, if_pos rfl]
    have huploaded := log_upload hlog (.layout k) .layout fun _ =>
      ⟨k, hlayout' k rfl, rfl⟩
    refine ⟨⟨huploaded.texts, huploaded.finished, huploaded.decoded, huploaded.current,
      huploaded.text, huploaded.layout⟩, ⟨⟨hpos, hsteps, hdropped⟩, hrest, fun _ => ?_⟩, rfl⟩
    exact ⟨hstart, hstop, .layout k, congrArg Seen.current (seen_append s' _), htypes⟩
  · have hcurrent : s'.seen.current = some (.layout k) := by
      have hseen : s'.seen = s.seen := by rw [hs']; rfl
      rw [hseen]
      by_cases hup : s.uploaded = .layout
      · obtain ⟨k', hk', hcur⟩ := h.layout hup
        rw [hcur, Option.some.inj (hlayout.symm.trans hk')]
      · rcases hok hup with rfl | hcur
        · refine absurd ⟨?_, ?_⟩ hwait
          · rw [hs']
            exact hup
          · rw [hupload, if_pos rfl]
        · rw [hcur, hlayout]
          rfl
    exact kept_pressRun hlog hrest hdropped hpending' hstart hstop (by omega) hcurrent htypes
      hlayout'

/-- Any other character is at the head: a keymap is uploaded for its run, or the rest is dropped. -/
theorem kept_startCustom {s : State} {alloc : Bool} {job : Job} {rest : List Job} {c : Char}
    {cs : List Char} (h : Log xkb s (job :: rest)) (hrest : ∀ next ∈ rest, next.Waiting)
    (hdropped : job.dropped = 0) (hpending : s.runPending = false)
    (hpos : job.pos < job.chars.length)
    (hsteps : job.steps ≤ 2 * job.pos + 1) (hleft : job.chars.drop job.pos = c :: cs)
    (hok : alloc = true → layoutKey xkb s c = none ∧ ∀ c ∈ customRun xkb s job, Named c) :
    Kept xkb (startCustom xkb alloc rest job s) := by
  obtain ⟨s', hs'⟩ : ∃ s', s' = { s with
      runInLayout := false
      batchKeys := (collect xkb s (job.chars.drop job.pos) [] job.pos).1
      runEnd := (collect xkb s (job.chars.drop job.pos) [] job.pos).2 } := ⟨_, rfl⟩
  have hlog : Log xkb s' (job :: rest) :=
    hs' ▸ ⟨h.texts, h.finished, h.decoded, h.current, h.text, h.layout⟩
  have hupload : uploadCustom xkb alloc job { s with runInLayout := false } =
      if alloc then (true, { s' with
        sent := s'.sent ++ [.keymap (.custom (makeKeymap s'.batchKeys)), .modifiers 0]
        uploaded := .custom })
      else (false, s') := by
    have hrun : collect xkb { s with runInLayout := false } (job.chars.drop job.pos) [] job.pos =
        collect xkb s (job.chars.drop job.pos) [] job.pos :=
      collect_congr (show State.layout { s with runInLayout := false } = s.layout from rfl) _ _ _
    rw [uploadCustom, hrun, hs']
  rw [startCustom, hupload]
  cases alloc with
  | false =>
    rw [if_neg Bool.false_ne_true]
    dsimp only
    rw [if_neg Bool.false_ne_true]
    refine kept_settle (hlog.replace rfl ?_) hrest (hs' ▸ hpending) le_rfl ?_ fun hlt => ?_
    · rw [Job.typed, Job.typed, hdropped, Nat.sub_zero]
      show job.chars.take (job.chars.length - (job.chars.length - job.pos)) = _
      rw [Nat.sub_sub_self hpos.le]
    · show job.steps ≤ 2 * job.chars.length
      omega
    · exact absurd hlt (lt_irrefl _)
  | true =>
    obtain ⟨hnone, hnamed⟩ := hok rfl
    obtain ⟨⟨run, hpre, hstop, hrun⟩, -, hlen⟩ :=
      collect_spec xkb s (job.chars.drop job.pos) [] job.pos
    have hslice : (job.chars.take s'.runEnd).drop job.pos = run := by
      rw [hs', hstop]
      exact slice_eq hpre
    rw [if_pos rfl]
    dsimp only
    rw [if_pos rfl]
    have huploaded := log_upload hlog (.custom (makeKeymap s'.batchKeys)) .custom
      fun hne => nomatch hne
    refine ⟨⟨huploaded.texts, huploaded.finished, huploaded.decoded, huploaded.current,
      huploaded.text, huploaded.layout⟩, ⟨⟨hpos, hsteps, hdropped⟩, hrest, fun _ => ?_⟩, rfl⟩
    refine ⟨?_, ?_, .custom (makeKeymap s'.batchKeys), congrArg Seen.current (seen_append s' _),
      ?_, rfl, ?_, fun d hd => ?_⟩
    · show job.pos < s'.runEnd
      rw [hs', hleft]
      exact lt_collect hnone cs job.pos
    · show s'.runEnd ≤ job.chars.length
      rw [hs', hstop]
      exact stop_le hpre hpos.le
    · rw [hs']
      rfl
    · rw [hs']
      exact hlen (Nat.zero_le _)
    · have hd' : d ∈ run := hslice ▸ hd
      refine ⟨?_, hnamed d ?_⟩
      · rw [hs']
        exact hrun d hd'
      · rw [customRun, hstop, slice_eq hpre]
        exact hd'

/-- **The step lemma** for the timer. -/
theorem kept_runJob {s : State} (hlog : Log xkb s s.jobs) (hqueue : Queue xkb s s.jobs)
    {alloc : Bool} (hok : Supplied xkb alloc s) : Kept xkb (runJob xkb alloc s) := by
  obtain ⟨jobs, hjobs⟩ : ∃ jobs, jobs = s.jobs := ⟨_, rfl⟩
  rw [runJob]
  rw [Supplied] at hok
  rw [← hjobs] at hlog hqueue hok ⊢
  cases jobs with
  | nil =>
    exact ⟨⟨hlog.texts, hlog.finished, hlog.decoded, hlog.current, hlog.text, hlog.layout⟩,
      hqueue, rfl⟩
  | cons job rest =>
    obtain ⟨hstarted, hrest, hpending⟩ := hqueue
    have hlog' : Log xkb s ({ job with steps := job.steps + 1 } :: rest) := hlog.replace rfl rfl
    dsimp only at hok ⊢
    by_cases hwait : s.runPending = true
    · rw [if_pos hwait] at hok ⊢
      obtain ⟨hstart, hstop, map, hcurrent, htypes⟩ := hpending hwait
      have hsteps := hstarted.steps
      rw [hwait] at hsteps
      have hlayout : ∀ k, map = .layout k → s.layout = some k := by
        rintro k rfl
        have hcur := hok htypes.1
        rw [Current, hcurrent] at hcur
        obtain ⟨k', hk', hmap⟩ := Option.map_eq_some_iff.mp hcur.symm
        rw [hk', Map.layout.inj hmap]
      refine kept_pressRun (s := { s with jobs := job :: rest, runPending := false })
        ⟨hlog'.texts, hlog'.finished, hlog'.decoded, hlog'.current, hlog'.text, hlog'.layout⟩ hrest
        hstarted.dropped rfl hstart hstop (Nat.succ_le_succ hsteps) hcurrent ?_ hlayout
      cases map with
      | layout k => exact htypes
      | custom file => exact htypes
    · rw [if_neg hwait] at hok ⊢
      have hidle : s.runPending = false := Bool.eq_false_iff.mpr hwait
      have hsteps := hstarted.steps
      rw [hidle] at hsteps
      have hpos := hstarted.pos
      obtain ⟨c, cs, hleft⟩ : ∃ c cs, job.chars.drop job.pos = c :: cs :=
        List.exists_cons_of_ne_nil fun hnil => absurd (List.drop_eq_nil_iff.mp hnil) (by omega)
      rw [hleft] at hok ⊢
      dsimp only at hok ⊢
      by_cases hkey : (layoutKey xkb s c).isSome = true ∧ s.layoutText.isSome = true
      · rw [if_pos hkey] at hok ⊢
        exact kept_startLayout hlog' hrest hstarted.dropped hidle hpos (Nat.succ_le_succ hsteps)
          hleft
          hkey.1 hkey.2 hok
      · rw [if_neg hkey] at hok ⊢
        exact kept_startCustom hlog' hrest hstarted.dropped hidle hpos (Nat.succ_le_succ hsteps)
          hleft
          hok

/-! ### The events -/

theorem kept_setLayout {s : State} (h : Kept xkb s) (keymap : Option Keymap) (hasText : Bool) :
    Kept xkb (setLayout keymap hasText s) := by
  cases keymap with
  | none => exact h
  | some k =>
    obtain ⟨hlog, hqueue, htimer⟩ := h
    obtain ⟨s', hs'⟩ : ∃ s', s' = setLayout (some k) hasText s := ⟨_, rfl⟩
    have hpending (job : Job) (hp : Pending xkb s job) : Pending xkb s' job := by
      obtain ⟨hstart, hstop, map, hcurrent, htypes⟩ := hp
      rw [hs']
      refine ⟨hstart, hstop, map, hcurrent, ?_⟩
      cases map with
      | layout k => exact htypes
      | custom file => exact htypes
    rw [← hs']
    refine ⟨⟨?_, ?_, ?_, ?_, fun k' hk' => ?_, fun hup => ?_⟩, ?_, ?_⟩
    · exact hs' ▸ hlog.texts
    · exact hs' ▸ hlog.finished
    · exact hs' ▸ hlog.decoded
    · exact hs' ▸ hlog.current
    · rw [hs'] at hk' ⊢
      have htext : (if hasText then some k else none) = some k' := hk'
      split_ifs at htext
      exact htext
    · rw [hs'] at hup
      have huploaded : (if s.uploaded = .layout then Uploaded.none else s.uploaded) = .layout := hup
      split_ifs at huploaded with hlayout
      exact absurd huploaded hlayout
    · have hjobs : s'.jobs = s.jobs := by rw [hs']; rfl
      have hwait : s'.runPending = s.runPending := by rw [hs']; rfl
      rw [hjobs]
      cases hj : s.jobs with
      | nil =>
        rw [hj] at hqueue
        exact hwait.trans hqueue
      | cons job rest =>
        rw [hj] at hqueue
        obtain ⟨hstarted, hrest, hp⟩ := hqueue
        refine ⟨hwait ▸ hstarted, hrest, fun hw => hpending job (hp (hwait ▸ hw))⟩
    · exact hs' ▸ htimer

theorem kept_typeText {s : State} (h : Kept xkb s) {text : List Char} {ready alloc : Bool}
    (hok : Regular xkb s (.typeText text ready alloc)) :
    Kept xkb (typeText xkb text ready alloc s) := by
  rw [typeText]
  split_ifs with hskip
  · exact h
  obtain ⟨htext, hready⟩ := not_or.mp hskip
  obtain ⟨hlog, hqueue, htimer⟩ := h
  obtain ⟨s', hs'⟩ : ∃ s' : State, s' =
    { s with jobs := s.jobs ++ [{ chars := text }], queued := s.queued ++ [text] } := ⟨_, rfl⟩
  have hnew : Job.Waiting { chars := text } := ⟨htext, rfl, rfl, rfl⟩
  have hlog' : Log xkb s' s'.jobs := by
    rw [hs']
    refine ⟨?_, hlog.finished, ?_, hlog.current, hlog.text, hlog.layout⟩
    · show (s.finished ++ (s.jobs ++ [({ chars := text } : Job)])).map Job.chars =
        s.queued ++ [text]
      rw [← List.append_assoc, List.map_append, hlog.texts]
      rfl
    · show s.seen.presses.map (Press.decode xkb) =
        ((s.finished ++ (s.jobs ++ [({ chars := text } : Job)])).flatMap Job.typed).map newline
      rw [← List.append_assoc, List.flatMap_append, hlog.decoded]
      exact congrArg (List.map newline) (List.append_nil _).symm
  have hqueue' : Queue xkb s' s'.jobs := by
    have hwait : s'.runPending = s.runPending := by rw [hs']
    have hjobs : s'.jobs = s.jobs ++ [{ chars := text }] := by rw [hs']
    rw [hjobs]
    cases hj : s.jobs with
    | nil =>
      rw [hj] at hqueue
      refine queue_rest (fun next hnext => ?_) (hwait.trans hqueue)
      rw [List.mem_singleton.mp hnext]
      exact hnew
    | cons job rest =>
      rw [hj] at hqueue
      obtain ⟨hstarted, hrest, hp⟩ := hqueue
      refine ⟨hwait ▸ hstarted, fun next hnext => ?_, fun hw => ?_⟩
      · rcases List.mem_append.mp hnext with hold | hlast
        · exact hrest next hold
        · rw [List.mem_singleton.mp hlast]
          exact hnew
      · obtain ⟨hstart, hstop, map, hcurrent, htypes⟩ := hp (hwait ▸ hw)
        rw [hs']
        refine ⟨hstart, hstop, map, hcurrent, ?_⟩
        cases map with
        | layout k => exact htypes
        | custom file => exact htypes
  have hidle (ht : s.jobTimer = false) : s.jobs = [] := by
    rw [htimer, Bool.not_eq_false'] at ht
    exact List.isEmpty_iff.mp ht
  rw [← hs']
  dsimp only
  split_ifs with hstart
  · have ht : s.jobTimer = false := by
      have hs := hstart.1
      rw [hs'] at hs
      exact hs
    exact kept_runJob hlog' hqueue' (hs' ▸ hok htext (Bool.eq_true_of_not_eq_false hready) ht)
  · refine ⟨hlog', hqueue', ?_⟩
    rw [hs'] at hstart ⊢
    show s.jobTimer = !(s.jobs ++ [({ chars := text } : Job)]).isEmpty
    cases ht : s.jobTimer with
    | false => exact absurd ⟨ht, by rw [hidle ht]; rfl⟩ hstart
    | true =>
      rw [List.isEmpty_eq_false_iff.mpr
        (List.append_ne_nil_of_right_ne_nil _ (List.cons_ne_nil _ _))]
      rfl

/-- **The step lemma.** -/
theorem kept_step {s : State} (h : Kept xkb s) {e : Event} (hok : Regular xkb s e) :
    Kept xkb (step xkb s e) := by
  cases e with
  | setLayout keymap hasText => exact kept_setLayout h keymap hasText
  | typeText text ready alloc => exact kept_typeText h hok
  | timer alloc =>
    rw [step]
    split_ifs with htimer
    · exact kept_runJob h.log h.queue (hok htimer)
    · exact h

/-! ### Runs -/

theorem kept_init : Kept xkb {} := by
  refine ⟨⟨rfl, ?_, rfl, ?_, ?_, ?_⟩, rfl, rfl⟩
  · rintro job ⟨⟩
  · rintro p ⟨⟩
  · rintro k ⟨⟩
  · rintro ⟨⟩

/-- **What is typed is what was queued**, in every run in which a run of the layout is pressed while
the keymap of the layout is current, and the other characters have names and are not in the layout.
-/
theorem faithful_of_regular {events : List Event}
    (h : Transition.Guarded (step xkb) (Regular xkb) {} events) : Faithful xkb (run xkb events) :=
  (h.invariant (P := Kept xkb) (fun _ _ hs he => kept_step hs he) kept_init).faithful

/-! ### A library of keymaps -/

def digitValue (b : UInt8) : ℕ := if b ≤ 57 then b.toNat - 48 else b.toNat - 55

/-- The number that hexadecimal digits stand for. -/
def hexValue (digits : Ascii.Text) : ℕ := digits.foldl (fun n b => 16 * n + digitValue b) 0

theorem digitValue_hexDigit : ∀ d < 16, digitValue (hexDigit d) = d := by decide

theorem hexValue_hexFour (n : ℕ) : hexValue (hexFour n) = n := by
  have hzeros :
      ∀ k, (List.replicate k (48 : UInt8)).foldl (fun n b => 16 * n + digitValue b) 0 = 0 := by
    intro k
    induction k with
    | zero => rfl
    | succ k ih => exact ih
  have hdigits : ∀ digits : List ℕ, (∀ d ∈ digits, d < 16) →
      (digits.map hexDigit).foldr (fun b n => 16 * n + digitValue b) 0 =
      Nat.ofDigits 16 digits := by
    intro digits
    induction digits with
    | nil => exact fun _ => rfl
    | cons d digits ih =>
      intro h
      obtain ⟨hd, hdigits⟩ := List.forall_mem_cons.mp h
      rw [List.map_cons, List.foldr_cons, ih hdigits, digitValue_hexDigit d hd, Nat.ofDigits_cons,
        Nat.add_comm]
  rw [hexValue, hexFour, List.foldl_append, hzeros, List.foldl_reverse,
    hdigits _ fun d hd => Nat.digits_lt_base (by decide) hd, Nat.ofDigits_digits]

/-- The keysym of a name, as far as it matters here. -/
def plainKeysym (name : Ascii.Text) : ℕ :=
  if name = Ascii.ofString "Return" then keyReturn
  else if name = Ascii.ofString "Tab" then keyTab
  else
    let n := hexValue name.tail
    if n < 0x100 then n else 0x1000000 + n

theorem plainKeysym_unicodeName (c : Char) : plainKeysym (unicodeName c) = unicodeKeysym c := by
  rw [plainKeysym, unicodeName, unicodeKeysym, if_neg (by simp [Ascii.ofString]),
    if_neg (by simp [Ascii.ofString]), List.tail_cons, hexValue_hexFour]

/-- The character of a keysym, as far as it matters here. -/
def plainChar (sym : ℕ) : ℕ := if sym < 0x1000000 then sym else sym - 0x1000000

theorem plainChar_unicodeKeysym (c : Char) : plainChar (unicodeKeysym c) = c.toNat := by
  rw [plainChar, unicodeKeysym]
  split_ifs <;> omega

/-- The names and the characters, as far as they matter here. -/
def plainXkb : Xkb where
  keysymFromName := plainKeysym
  keysymToUtf32 := plainChar
  fromName_return := rfl
  fromName_tab := rfl
  fromName_unicode c _ := plainKeysym_unicodeName c
  toUtf32_unicode c _ := plainChar_unicodeKeysym c

/-- A text that is typed without a layout. -/
def plainText : List Event := [.typeText ['a', '\r'] true true, .timer true]

theorem faithful_plainText : Faithful plainXkb (run plainXkb plainText) := by
  refine faithful_of_regular ⟨fun _ _ _ _ => ⟨rfl, ?_⟩, fun _ hlayout => ?_, trivial⟩
  · exact List.forall_mem_cons.mpr
      ⟨.inr (.inr (.inr (by decide))), List.forall_mem_singleton.mpr (.inr (.inl rfl))⟩
  · exact absurd (show false = true from hlayout) Bool.false_ne_true

/-- A layout of two keys. -/
def twoKeys (first second : ℕ) : Keymap where
  minKeycode := 24
  maxKeycode := 25
  numLevels _ := 1
  syms code _ := if code = 24 then [first] else [second]
  mods _ l := if l = 0 then [0] else []
  level _ _ := 0
  level_mods := by
    intro _ l mask hmask
    split_ifs at hmask with hl
    · exact hl.symm
    · cases hmask

/-- The text is queued under one layout, and pressed under another. -/
def swapped : List Event :=
  [.setLayout (some (twoKeys 0x71 0x61)) true, .typeText ['a'] true true,
    .setLayout (some (twoKeys 0x61 0x71)) true, .timer true]

theorem not_faithful : ¬∀ xkb events, Faithful xkb (run xkb events) := by
  intro h
  have hread : (run plainXkb swapped).seen.presses.map (Press.decode plainXkb) = [0x71] := rfl
  have hdecoded := (h plainXkb swapped).decoded
  rw [hread] at hdecoded
  exact absurd hdecoded (by decide)

end Vkbd

end SingularityShell
