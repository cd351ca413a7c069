import SingularityShell.Lib.Lists
import SingularityShell.Lock.Unlock

/-!
# An accepted password and the leave phase

The leave phase ends when the compositor's frame for some output is done. An output asks for the
next frame while it draws, and it does not draw without a buffer. So the phase lasts for ever once
no output waits for a frame.

## Main definitions

* `Lock.Carried` — in the leave phase, a configured output waits for a frame
* `Lock.Supplied` — an event after which that is still so

## Main results

* `Lock.carried_step_iff` — the step lemma
* `Lock.carried_iff` — the runs in which the leave phase is always carried on
-/

namespace SingularityShell

namespace Lock

variable {motion : Motion}

/-- A configured output that waits for the compositor's next frame. -/
def Output.Waits (o : Output) : Prop := o.configured = true ∧ o.frameCb = true

/-- In the leave phase, before the session is unlocked, a configured output waits for a frame. -/
def Carried (s : State) : Prop :=
  s.anim.phase = .leave → s.unlocks = [] → ∃ o ∈ s.outputs, o.Waits

/-! ### What drawing does to the outputs -/

/-- What drawing keeps of an output: only a configured output waits, and it goes on waiting. -/
structure Kept (o o' : Output) : Prop where
  waits : o.Waits → o'.Waits
  sound : (o.frameCb = true → o.configured = true) → o'.frameCb = true → o'.configured = true

theorem Kept.refl (o : Output) : Kept o o := ⟨id, id⟩

theorem exists_waits {outputs outputs' : List Output} (h : List.Forall₂ Kept outputs outputs')
    (hw : ∃ o ∈ outputs, o.Waits) : ∃ o ∈ outputs', o.Waits := by
  induction h with
  | nil => exact hw
  | @cons o o' outputs outputs' ho _ ih =>
    obtain ⟨x, hx, hwait⟩ := hw
    rcases List.mem_cons.mp hx with rfl | hx
    · exact ⟨o', List.mem_cons_self, ho.waits hwait⟩
    · obtain ⟨x', hx', hwait'⟩ := ih ⟨x, hx, hwait⟩
      exact ⟨x', List.mem_cons_of_mem _ hx', hwait'⟩

/-- Only configured outputs wait. -/
def Sound (outputs : List Output) : Prop := ∀ o ∈ outputs, o.frameCb = true → o.configured = true

theorem Sound.kept {outputs outputs' : List Output} (h : Sound outputs)
    (hkept : List.Forall₂ Kept outputs outputs') : Sound outputs' := by
  induction hkept with
  | nil => exact h
  | @cons o o' outputs outputs' ho _ ih =>
    intro x hx
    rcases List.mem_cons.mp hx with rfl | hx
    · exact ho.sound (h o List.mem_cons_self)
    · exact ih (fun y hy => h y (List.mem_cons_of_mem _ hy)) x hx

variable (motion) in
theorem renderOutput_eq (o : Output) (a : Anim) :
    ∃ frameCb, (renderOutput motion o a).1 = { o with frameCb } ∧
      (o.frameCb = true → frameCb = true) := by
  rw [renderOutput]
  split_ifs with hcb
  · exact ⟨o.frameCb, rfl, fun h => h⟩
  · exact ⟨_, rfl, fun h => absurd h hcb⟩
  · exact ⟨o.frameCb, rfl, fun h => h⟩

theorem kept_renderOutput {o : Output} (ho : o.configured = true) (a : Anim) :
    Kept o (renderOutput motion o a).1 := by
  obtain ⟨frameCb, heq, hcb⟩ := renderOutput_eq motion o a
  rw [heq]
  exact ⟨fun h => ⟨ho, hcb h.2⟩, fun _ _ => ho⟩

theorem kept_renderOutputs (outputs : List Output) (a : Anim) :
    List.Forall₂ Kept outputs (renderOutputs motion outputs a).1 := by
  induction outputs generalizing a with
  | nil => exact .nil
  | cons o outputs ih =>
    rw [renderOutputs]
    dsimp only
    split_ifs with ho
    · exact .cons (kept_renderOutput ho a) (ih _)
    · exact .cons (.refl o) (ih a)

theorem kept_withOutput {f : Output → Anim → Output × Anim} (hf : ∀ o a, Kept o (f o a).1)
    (target : ℕ) (outputs : List Output) (a : Anim) :
    List.Forall₂ Kept outputs (withOutput target f outputs a).1 := by
  induction outputs generalizing a with
  | nil => exact .nil
  | cons o outputs ih =>
    rw [withOutput]
    split_ifs
    · exact .cons (hf o a) (List.forall₂_same.mpr fun o _ => .refl o)
    · exact .cons (.refl o) (ih a)

theorem kept_configure (o : Output) (a : Anim) : Kept o (configure motion o a).1 := by
  rw [configure]
  split_ifs
  · obtain ⟨frameCb, heq, hcb⟩ := renderOutput_eq motion { o with configured := true } a
    rw [heq]
    exact ⟨fun h => ⟨rfl, hcb h.2⟩, fun _ _ => rfl⟩
  · exact .refl o

theorem kept_createLockSurface (outputs : List Output) :
    List.Forall₂ Kept outputs (outputs.map createLockSurface) := by
  induction outputs with
  | nil => exact .nil
  | cons o outputs ih => exact .cons ⟨id, id⟩ ih

/-! ### Drawing in the leave phase -/

variable (motion) in
/-- An output that draws into a buffer in the leave phase waits for the next frame. -/
theorem draw_leave {a : Anim} (h : a.phase = .leave) (now : ℤ) (o : Output) :
    (draw motion now o a).1 = { o with frameCb := true } ∧
    (draw motion now o a).2.phase = .leave := by
  have hphase := (applyMotion_phase motion now a).mpr h
  refine ⟨?_, hphase⟩
  rw [draw]
  dsimp only
  rw [hphase, decide_eq_true rfl, Bool.or_true]

/-- The outputs that wait after a drawing in the leave phase: those that did, and those that find a
buffer. -/
theorem renderOutputs_waits {a : Anim} (h : a.phase = .leave) (outputs : List Output) :
    (∃ o ∈ (renderOutputs motion outputs a).1, o.Waits) ↔ (∃ o ∈ outputs, o.Waits) ∨
      ∃ r ∈ a.renders.take (outputs.countP (·.configured)), r.buffer = true := by
  induction outputs generalizing a with
  | nil => simp [renderOutputs]
  | cons o outputs ih =>
    rw [renderOutputs]
    dsimp only
    by_cases ho : o.configured = true
    swap
    · have hnot : ¬o.Waits := fun hw => ho hw.1
      rw [if_neg ho, List.countP_cons_of_neg ho, List.exists_mem_cons_iff, List.exists_mem_cons_iff,
        ih h]
      simp only [hnot, false_or]
    rw [if_pos ho, List.countP_cons_of_pos ho, List.exists_mem_cons_iff, List.exists_mem_cons_iff]
    by_cases hcb : o.frameCb = true
    · have hw : o.Waits := ⟨ho, hcb⟩
      rw [renderOutput, if_pos hcb]
      exact iff_of_true (Or.inl hw) (Or.inl (Or.inl hw))
    have hnot : ¬o.Waits := fun hw => hcb hw.2
    rw [renderOutput, if_neg hcb]
    cases hrenders : a.renders with
    | nil =>
      have hbuffer : a.render.buffer = false := by rw [Anim.render, hrenders]; rfl
      rw [if_neg (by rw [hbuffer]; decide)]
      dsimp only
      rw [ih (a := { a with renders := List.tail [] }) h]
      simp [hnot]
    | cons r renders =>
      have hrender : a.render = r := by rw [Anim.render, hrenders]; rfl
      rw [hrender, List.take_succ_cons, List.exists_mem_cons_iff]
      by_cases hbuffer : r.buffer = true
      · rw [if_pos hbuffer]
        obtain ⟨heq, -⟩ := draw_leave motion (a := { a with renders := a.renders.tail }) h r.now o
        refine iff_of_true (Or.inl ?_) (Or.inr (Or.inl hbuffer))
        rw [← hrenders, heq]
        exact ⟨ho, rfl⟩
      · rw [if_neg hbuffer]
        dsimp only
        rw [ih (a := { a with renders := (r :: renders).tail }) h]
        simp [hnot, hbuffer]

/-! ### The condition -/

/-- The state in which an event is handled. -/
def prepared (s : State) (e : Event) : State :=
  { s with anim := { s.anim with renders := e.renders } }

/-- The state after the drawing that shows the answer to a password or to a match. -/
def shown (motion : Motion) (s : State) (e : Event) : State := renderAll motion (prepared s e)

/-- The event begins the leave phase. -/
def Begins (s : State) : Kind → Prop
  | .key .enter rc _ => s.Accepts rc
  | .signal .verifyMatch _ => s.fprint.connected = true ∧ s.anim.phase ≠ .leave
  | _ => False

/-- The leave phase can begin: an output waits for a frame, or one finds a buffer in the drawing
that begins the phase. -/
def Started (s : State) : Prop :=
  s.any = true → (∃ o ∈ s.outputs, o.Waits) ∨
    ∃ r ∈ s.anim.renders.take (s.outputs.countP (·.configured)), r.buffer = true

/-- The leave phase goes on after an event before the session is unlocked. When it begins, an output
waits for a frame, or one finds a buffer in the drawing that begins it. When an output's frame is
done, it finds a buffer, or another output waits, and when an output is removed, another waits. -/
def Supplied (motion : Motion) (s : State) (e : Event) : Prop :=
  s.unlocks = [] →
    match e.kind with
    | .frame target now => s.anim.phase = .leave → s.waits target = true → ¬s.anim.over now →
        (e.renders.headD ⟨0, false⟩).buffer = true ∨ ∃ o ∈ s.outputs.eraseP (·.id = target), o.Waits
    | .remove name => s.anim.phase = .leave →
        (s.outputs.eraseP (·.name = name)).any (·.configured) = true →
          ∃ o ∈ s.outputs.eraseP (·.name = name), o.Waits
    | kind => Begins s kind → Started (shown motion s e)

/-! ### Steps that the leave phase does not depend on -/

/-- A step that neither begins the leave phase nor takes a frame from an output. -/
structure Steady (s s' : State) : Prop where
  unlocks : s'.unlocks = [] → s.unlocks = []
  phase : s'.anim.phase = .leave → s.anim.phase = .leave
  waits : (∃ o ∈ s.outputs, o.Waits) → ∃ o ∈ s'.outputs, o.Waits
  sound : Sound s.outputs → Sound s'.outputs

theorem Steady.refl (s : State) : Steady s s := ⟨id, id, id, id⟩

theorem Steady.trans {s s' s'' : State} (h : Steady s s') (h' : Steady s' s'') : Steady s s'' :=
  ⟨h.unlocks ∘ h'.unlocks, h.phase ∘ h'.phase, h'.waits ∘ h.waits, h'.sound ∘ h.sound⟩

theorem Steady.carried {s s' : State} (h : Steady s s') (hs : Carried s) : Carried s' :=
  fun hphase hunlocks => h.waits (hs (h.phase hphase) (h.unlocks hunlocks))

theorem Steady.of_kept {s s' : State} (hunlocks : s'.unlocks = s.unlocks)
    (hphase : s'.anim.phase = .leave → s.anim.phase = .leave)
    (hkept : List.Forall₂ Kept s.outputs s'.outputs) : Steady s s' :=
  ⟨hunlocks ▸ id, hphase, exists_waits hkept, fun hs => hs.kept hkept⟩

theorem steady_renderAll (s : State) : Steady s (renderAll motion s) :=
  .of_kept rfl (renderOutputs_phase s.outputs s.anim).mp (kept_renderOutputs s.outputs s.anim)

theorem steady_onFprintStatus (s : State) : Steady s (onFprintStatus motion s) := by
  rw [onFprintStatus]
  split_ifs
  · exact .refl s
  · exact steady_renderAll s

/-- What drawing does not look at. -/
theorem Steady.congr {s s₁ s' : State} (h : Steady s₁ s') (hunlocks : s₁.unlocks = s.unlocks)
    (hphase : s₁.anim.phase = s.anim.phase) (houtputs : s₁.outputs = s.outputs) : Steady s s' :=
  ⟨hunlocks ▸ h.unlocks, hphase ▸ h.phase, houtputs ▸ h.waits, houtputs ▸ h.sound⟩

theorem steady_onReply (call : Call) (ok : Bool) (fingers : ℕ) (s : State) :
    Steady s (onReply motion call ok fingers s) := by
  have hs (f : Fprint) : Steady s { s with fprint := f } := ⟨id, id, id, id⟩
  rw [onReply]
  by_cases hpending : call ∈ s.fprint.pending
  · rw [if_pos hpending]
    dsimp only
    split_ifs
    · exact (hs _).trans (steady_onFprintStatus _)
    · exact hs _
  · rw [if_neg hpending]
    exact .refl s

/-- In the leave phase a match only draws again. -/
theorem steady_onFprintMatch {s : State} (hleave : s.anim.phase = .leave) :
    Steady s (onFprintMatch motion s) := by
  have hphase : (renderAll motion s).anim.phase = .leave :=
    (renderOutputs_phase s.outputs s.anim).mpr hleave
  rw [onFprintMatch, beginLeave, if_pos hphase]
  exact steady_renderAll s

theorem steady_onSignal {s : State} {result : VerifyResult} (done : Bool)
    (h : result = .verifyMatch → s.anim.phase = .leave) :
    Steady s (onSignal motion result done s) := by
  have hs (s : State) (f : Fprint) : Steady s { s with fprint := f } := ⟨id, id, id, id⟩
  have hs' (f : Fprint) (authenticated : Bool) : Steady s { s with fprint := f, authenticated } :=
    ⟨id, id, id, id⟩
  have hreport (f : Fprint) : Steady s (if result = .other then { s with fprint := f }
      else onFprintStatus motion { s with fprint := f }) := by
    split_ifs
    · exact hs s f
    · exact (hs s f).trans (steady_onFprintStatus _)
  have hretry (s' : State) (h' : Steady s s') :
      Steady s (if done = true then { s' with fprint := restartVerify s'.fprint } else s') := by
    split_ifs
    · exact h'.trans (hs _ _)
    · exact h'
  cases result with
  | verifyMatch => exact (hs' _ _).trans (steady_onFprintMatch (h rfl))
  | verifyDisconnected => exact (hs s _).trans (steady_onFprintStatus _)
  | verifyNoMatch => exact hretry _ (hreport _)
  | verifySwipeTooShort => exact hretry _ (hreport _)
  | verifyFingerNotCentered => exact hretry _ (hreport _)
  | verifyRemoveAndRetry => exact hretry _ (hreport _)
  | verifyRetryScan => exact hretry _ (hreport _)
  | other => exact hretry _ (hreport _)

theorem shake_phase (now : ℤ) (a : Anim) : (shake motion now a).phase = a.phase := by
  rw [shake]
  split_ifs <;> rfl

/-- A key with which no password is accepted. -/
theorem steady_kbKey {s : State} {key : Key} {rc : ℤ} (now : ℤ)
    (h : ¬Begins s (.key key rc now)) : Steady s (kbKey motion key rc now s) := by
  rw [kbKey]
  split_ifs with hlistens
  swap
  · exact .refl s
  obtain ⟨hkeymap, hleave⟩ := hlistens
  cases key with
  | enter =>
    rw [pressed, submitPassword]
    by_cases hempty : s.password.length = 0
    · rw [if_pos hempty]
      exact .refl s
    rw [if_neg hempty]
    have hrc : rc ≠ 0 := fun hrc =>
      h ⟨hkeymap, hleave, fun hnil => hempty (by rw [hnil]; rfl), hrc⟩
    dsimp only
    rw [if_neg hrc]
    refine (steady_renderAll s).trans ((steady_renderAll _).congr rfl ?_ rfl)
    exact shake_phase now (renderAll motion s).anim
  | backSpace => exact (steady_renderAll _).congr rfl rfl rfl
  | escape => exact (steady_renderAll _).congr rfl rfl rfl
  | media => exact .refl s
  | text bytes =>
    rw [pressed]
    split_ifs
    · exact (steady_renderAll _).congr rfl rfl rfl
    · exact .refl s

/-! ### The other steps -/

/-- The leave phase begins. -/
theorem carried_beginLeave_iff {s : State} (hleave : s.anim.phase ≠ .leave) :
    Carried (beginLeave motion s) ↔ (s.unlocks = [] → Started s) := by
  rw [beginLeave, if_neg hleave]
  by_cases hany : s.any = true
  · obtain ⟨a, ha⟩ : ∃ a, a = startPhase motion .leave motionLargeMs
        { s.anim with shakeStart := none } := ⟨_, rfl⟩
    have hstart : a.phase = .leave := by rw [ha]; rfl
    have hrenders : a.renders = s.anim.renders := by rw [ha]; rfl
    have hphase : (renderAll motion { s with anim := a }).anim.phase = .leave :=
      (renderOutputs_phase s.outputs a).mpr hstart
    rw [if_pos hany, ← ha, Carried, Started]
    simp only [hphase, hany, forall_const]
    rw [← hrenders]
    exact imp_congr_right fun _ => renderOutputs_waits hstart s.outputs
  · rw [if_neg hany]
    refine iff_of_true (fun _ hunlocks => ?_) (fun _ h => absurd h hany)
    exact absurd hunlocks (List.append_ne_nil_of_right_ne_nil _ (List.cons_ne_nil _ _))

theorem sound_beginLeave {s : State} (h : Sound s.outputs) :
    Sound (beginLeave motion s).outputs := by
  rw [beginLeave]
  split_ifs
  · exact h
  · exact h.kept (kept_renderOutputs s.outputs _)
  · exact h

/-- An output is removed. -/
theorem carried_regRemove_iff {s : State} (h : Carried s) (name : ℕ) :
    Carried (regRemove name s) ↔ (s.unlocks = [] → s.anim.phase = .leave →
      (s.outputs.eraseP (·.name = name)).any (·.configured) = true →
        ∃ o ∈ s.outputs.eraseP (·.name = name), o.Waits) := by
  rw [regRemove]
  by_cases hfound : s.outputs.any (·.name = name) = true
  swap
  · have herase : s.outputs.eraseP (·.name = name) = s.outputs :=
      List.eraseP_of_forall_not (by simpa using hfound)
    rw [if_neg hfound, herase]
    exact iff_of_true h fun hunlocks hleave _ => h hleave hunlocks
  rw [if_pos hfound]
  dsimp only
  split_ifs with hlast
  · refine iff_of_true (fun _ hunlocks => ?_) fun _ _ hany => absurd hany hlast.2
    exact absurd hunlocks (List.append_ne_nil_of_right_ne_nil _ (List.cons_ne_nil _ _))
  · refine ⟨fun h hunlocks hleave _ => h hleave hunlocks, fun h hleave hunlocks => ?_⟩
    exact h hunlocks hleave (Bool.eq_true_of_not_eq_false fun hany =>
      hlast ⟨hleave, Bool.eq_false_iff.mp hany⟩)

theorem withOutput_split {f : Output → Anim → Output × Anim} {target : ℕ} {l₁ l₂ : List Output}
    {o : Output} (hl₁ : ∀ x ∈ l₁, x.id ≠ target) (ho : o.id = target) (a : Anim) :
    withOutput target f (l₁ ++ o :: l₂) a = (l₁ ++ (f o a).1 :: l₂, (f o a).2) := by
  induction l₁ with
  | nil => rw [List.nil_append, withOutput, if_pos ho]; rfl
  | cons x l₁ ih =>
    rw [List.cons_append, withOutput, if_neg (hl₁ x List.mem_cons_self),
      ih fun y hy => hl₁ y (List.mem_cons_of_mem _ hy)]
    rfl

/-- The output whose frame is done, and the others. -/
theorem waits_spec {s : State} {target : ℕ} (h : s.waits target = true) :
    ∃ l₁ o l₂, s.outputs = l₁ ++ o :: l₂ ∧ s.outputs.eraseP (·.id = target) = l₁ ++ l₂ ∧
      (∀ x ∈ l₁, x.id ≠ target) ∧ o.id = target ∧ o.frameCb = true := by
  rw [State.waits] at h
  cases hfind : s.outputs.find? (·.id = target) with
  | none =>
    rw [hfind] at h
    cases h
  | some o =>
    rw [hfind] at h
    obtain ⟨l₁, l₂, hsplit, herase, hl₁⟩ := Lists.find?_eraseP hfind
    have hid : o.id = target := by simpa using List.find?_some hfind
    exact ⟨l₁, o, l₂, hsplit, herase, fun x hx => by simpa using hl₁ x hx, hid, h⟩

/-- A frame is done. -/
theorem carried_frameDone_iff {s : State} (h : Carried s) (hsound : Sound s.outputs) (target : ℕ)
    (now : ℤ) : Carried (frameDone motion target now s) ↔ (s.unlocks = [] → s.anim.phase = .leave →
      s.waits target = true → ¬s.anim.over now →
        s.anim.render.buffer = true ∨ ∃ o ∈ s.outputs.eraseP (·.id = target), o.Waits) := by
  rw [frameDone]
  by_cases hwaits : s.waits target = true
  swap
  · rw [if_neg hwaits]
    exact iff_of_true h fun _ _ hw => absurd hw hwaits
  rw [if_pos hwaits]
  by_cases hover : s.anim.over now
  · rw [if_pos hover]
    refine iff_of_true (fun _ hunlocks => ?_) fun _ _ _ hnot => absurd hover hnot
    exact absurd hunlocks (List.append_ne_nil_of_right_ne_nil _ (List.cons_ne_nil _ _))
  rw [if_neg hover]
  obtain ⟨l₁, o, l₂, hsplit, herase, hl₁, hid, hcb⟩ := waits_spec hwaits
  have ho : o.configured = true := hsound o (by rw [hsplit]; simp) hcb
  rw [herase]
  dsimp only
  rw [hsplit, withOutput_split hl₁ hid]
  rw [Carried]
  dsimp only
  rw [renderOutput_phase]
  have hdrawn (hleave : s.anim.phase = .leave) :
      (renderOutput motion { o with frameCb := false } s.anim).1.Waits ↔
        s.anim.render.buffer = true := by
    rw [renderOutput, if_neg Bool.false_ne_true]
    split_ifs with hbuffer
    · rw [(draw_leave motion (a := { s.anim with renders := s.anim.renders.tail }) hleave
        _ _).1]
      exact iff_of_true ⟨ho, rfl⟩ hbuffer
    · exact iff_of_false (fun hw => Bool.false_ne_true hw.2) hbuffer
  have hmem (hleave : s.anim.phase = .leave) :
      (∃ x ∈ l₁ ++ (renderOutput motion { o with frameCb := false } s.anim).1 :: l₂, x.Waits) ↔
        s.anim.render.buffer = true ∨ ∃ x ∈ l₁ ++ l₂, x.Waits := by
    rw [← hdrawn hleave]
    simp only [List.mem_append, List.mem_cons, or_and_right, exists_or, exists_eq_left]
    exact or_left_comm
  constructor
  · exact fun hc hunlocks hleave _ _ => (hmem hleave).mp (hc hleave hunlocks)
  · exact fun hc hleave hunlocks => (hmem hleave).mpr (hc hunlocks hleave hwaits hover)

theorem sound_frameDone {s : State} (h : Sound s.outputs) (target : ℕ) (now : ℤ) :
    Sound (frameDone motion target now s).outputs := by
  rw [frameDone]
  by_cases hwaits : s.waits target = true
  swap
  · rw [if_neg hwaits]
    exact h
  rw [if_pos hwaits]
  obtain ⟨l₁, o, l₂, hsplit, -, hl₁, hid, hcb⟩ := waits_spec hwaits
  have ho : o.configured = true := h o (by rw [hsplit]; simp) hcb
  have hreplace (o' : Output) (ho' : o'.configured = true) : Sound (l₁ ++ o' :: l₂) := by
    intro x hx
    rcases List.mem_append.mp hx with hx | hx
    · exact h x (by rw [hsplit]; exact List.mem_append_left _ hx)
    · rcases List.mem_cons.mp hx with rfl | hx
      · exact fun _ => ho'
      · exact h x (by rw [hsplit]; exact List.mem_append_right _ (List.mem_cons_of_mem _ hx))
  split_ifs
  · dsimp only [unlockSession]
    rw [hsplit, withOutput_split hl₁ hid]
    exact hreplace _ ho
  · dsimp only
    rw [hsplit, withOutput_split hl₁ hid]
    obtain ⟨frameCb, heq, -⟩ :=
      renderOutput_eq motion { o with frameCb := false } s.anim
    dsimp only
    rw [heq]
    exact hreplace _ ho

/-! ### Steps and runs -/

variable (motion) in
/-- An event with which the leave phase does not begin, and that takes no frame from an output. -/
theorem steady_step {s : State} {e : Event} (hbegin : ¬Begins s e.kind)
    (hframe : ∀ target now, e.kind ≠ .frame target now) (hremove : ∀ name, e.kind ≠ .remove name) :
    Steady (prepared s e) (step motion s e) := by
  obtain ⟨kind, renders⟩ := e
  rw [step]
  show Steady (prepared s ⟨kind, renders⟩) (handle motion (prepared s ⟨kind, renders⟩) kind)
  obtain ⟨s', hs'⟩ : ∃ s', s' = prepared s ⟨kind, renders⟩ := ⟨_, rfl⟩
  have hbegin' : ¬Begins s' kind := by
    rw [hs']
    cases kind with
    | key key rc now => cases key <;> exact hbegin
    | signal result done => cases result <;> exact hbegin
    | _ => exact hbegin
  rw [← hs']
  cases kind with
  | output name =>
    refine ⟨id, id, ?_, fun h x hx => ?_⟩
    · rintro ⟨o, ho, hw⟩
      exact ⟨o, List.mem_cons_of_mem _ ho, hw⟩
    · rcases List.mem_cons.mp hx with rfl | hx
      · split_ifs <;> (intro hcb; cases hcb)
      · exact h x hx
  | remove name => exact absurd rfl (hremove name)
  | locked => exact .of_kept rfl id (kept_createLockSurface s'.outputs)
  | finished => exact ⟨id, id, id, id⟩
  | configure target =>
    refine .of_kept rfl (withOutput_phase (fun o a => ?_) target s'.outputs s'.anim)
      (kept_withOutput kept_configure target s'.outputs s'.anim)
    rw [configure]
    split_ifs
    · exact (renderOutput_phase { o with configured := true } a).mp
    · exact id
  | frame target now => exact absurd rfl (hframe target now)
  | keymap => exact ⟨id, id, id, id⟩
  | key key rc now => exact steady_kbKey now hbegin'
  | fprintStart => exact ⟨id, id, id, id⟩
  | reply call ok fingers => exact steady_onReply call ok fingers s'
  | signal result done =>
    rw [handle]
    split_ifs with hconnected
    · refine steady_onSignal done fun hmatch => ?_
      subst hmatch
      by_contra hleave
      exact hbegin' ⟨hconnected, hleave⟩
    · exact .refl s'
  | repaint => exact steady_renderAll s'

variable (motion) in
/-- An event that begins the leave phase shows the answer, and then begins the phase. -/
theorem step_of_begins {s : State} {e : Event} (h : Begins s e.kind) :
    ∃ s₁, step motion s e = beginLeave motion s₁ ∧ s₁.anim = (shown motion s e).anim ∧
      s₁.outputs = (shown motion s e).outputs ∧ s₁.unlocks = s.unlocks ∧
        s₁.anim.phase ≠ .leave := by
  have hphase (a : Anim) (ha : a.phase ≠ .leave) :
      (renderOutputs motion s.outputs a).2.phase ≠ .leave :=
    fun hleave => ha ((renderOutputs_phase s.outputs a).mp hleave)
  obtain ⟨kind, renders⟩ := e
  cases kind with
  | key key rc now =>
    cases key with
    | enter =>
      obtain ⟨hkeymap, hleave, hpassword, hrc⟩ := h
      refine ⟨{ shown motion s ⟨.key .enter rc now, renders⟩ with
        password := [], authenticated := true }, ?_, rfl, rfl, rfl, hphase _ hleave⟩
      have hlength : (prepared s ⟨.key .enter rc now, renders⟩).password.length ≠ 0 :=
        fun hzero => hpassword (List.length_eq_zero_iff.mp hzero)
      show kbKey motion .enter rc now (prepared s ⟨.key .enter rc now, renders⟩) = _
      rw [kbKey, if_pos ⟨hkeymap, hleave⟩, pressed, submitPassword, if_neg hlength]
      dsimp only
      rw [if_pos hrc]
      rfl
    | _ => exact absurd h id
  | signal result done =>
    cases result with
    | verifyMatch =>
      obtain ⟨hconnected, hleave⟩ := h
      refine ⟨renderAll motion { prepared s ⟨.signal .verifyMatch done, renders⟩ with
        fprint := { s.fprint with verifying := false, verification := false },
        authenticated := s.authenticated || (s.fprint.claimed && s.fprint.verification) },
        ?_, rfl, rfl, rfl, hphase _ hleave⟩
      show (if s.fprint.connected = true then onSignal motion .verifyMatch done
        (prepared s ⟨.signal .verifyMatch done, renders⟩) else _) = _
      rw [if_pos hconnected]
      rfl
    | _ => exact absurd h id
  | _ => exact absurd h id

theorem sound_step {s : State} (h : Sound s.outputs) (e : Event) :
    Sound (step motion s e).outputs := by
  by_cases hbegin : Begins s e.kind
  · obtain ⟨s₁, hstep, -, houtputs, -⟩ := step_of_begins motion hbegin
    rw [hstep]
    refine sound_beginLeave ?_
    rw [houtputs]
    exact h.kept (kept_renderOutputs s.outputs _)
  by_cases hframe : ∃ target now, e.kind = .frame target now
  · obtain ⟨target, now, hkind⟩ := hframe
    rw [step, hkind]
    exact sound_frameDone (s := prepared s e) h target now
  by_cases hremove : ∃ name, e.kind = .remove name
  · obtain ⟨name, hkind⟩ := hremove
    have herase : Sound (s.outputs.eraseP (·.name = name)) :=
      fun o ho => h o (List.mem_of_mem_eraseP ho)
    rw [step, hkind, handle, regRemove]
    split_ifs
    · dsimp only
      split_ifs
      · exact herase
      · exact herase
    · exact h
  · exact (steady_step motion hbegin (fun target now hkind => hframe ⟨target, now, hkind⟩)
      fun name hkind => hremove ⟨name, hkind⟩).sound h

/-- **The step lemma.** -/
theorem carried_step_iff {s : State} (hsound : Sound s.outputs) (h : Carried s) (e : Event) :
    Carried (step motion s e) ↔ Supplied motion s e := by
  have hs : Carried (prepared s e) := h
  by_cases hbegin : Begins s e.kind
  · obtain ⟨s₁, hstep, hanim, houtputs, hunlocks, hleave⟩ := step_of_begins motion hbegin
    have hstarted : Started s₁ ↔ Started (shown motion s e) := by
      rw [Started, Started, State.any, State.any, hanim, houtputs]
    rw [hstep, carried_beginLeave_iff hleave, hunlocks, hstarted]
    obtain ⟨kind, renders⟩ := e
    cases kind with
    | key key rc now => exact ⟨fun h hnone _ => h hnone, fun h hnone => h hnone hbegin⟩
    | signal result done => exact ⟨fun h hnone _ => h hnone, fun h hnone => h hnone hbegin⟩
    | _ => exact absurd hbegin id
  by_cases hframe : ∃ target now, e.kind = .frame target now
  · obtain ⟨target, now, hkind⟩ := hframe
    rw [Supplied, hkind, step, hkind]
    exact carried_frameDone_iff (s := prepared s e) hs hsound target now
  by_cases hremove : ∃ name, e.kind = .remove name
  · obtain ⟨name, hkind⟩ := hremove
    rw [Supplied, hkind, step, hkind]
    exact carried_regRemove_iff (s := prepared s e) hs name
  · have hsteady := steady_step motion hbegin
      (fun target now hkind => hframe ⟨target, now, hkind⟩) fun name hkind => hremove ⟨name, hkind⟩
    refine iff_of_true (hsteady.carried hs) fun _ => ?_
    obtain ⟨kind, renders⟩ := e
    cases kind with
    | frame target now => exact absurd ⟨target, now, rfl⟩ hframe
    | remove name => exact absurd ⟨name, rfl⟩ hremove
    | _ => exact fun h => absurd h hbegin

/-- **When an accepted password ends in unlocking**: in exactly the runs in which, until the session
is unlocked, some configured output waits for a frame or finds a buffer whenever the leave phase
begins or goes on. -/
theorem carried_iff (motion : Motion) (events : List Event) :
    (∀ events', events' <+: events → Carried (run motion (.init motion) events')) ↔
      Transition.Guarded (step motion) (Supplied motion) (.init motion) events :=
  Transition.guarded_iff_forall_prefix (I := fun s : State => Sound s.outputs)
    (fun _ e hsound _ => sound_step hsound e) (fun _ e hsound h => carried_step_iff hsound h e)
    (fun _ ho => absurd ho List.not_mem_nil) (fun h => Phase.noConfusion h) events

/-- The only output has finished to enter, and finds no buffer when the password is accepted. -/
def starved : List Event :=
  [⟨.output 1, []⟩, ⟨.locked, []⟩, ⟨.configure 0, [⟨0, true⟩]⟩,
    ⟨.frame 0 1000000, [⟨1000000, true⟩]⟩, ⟨.keymap, []⟩,
    ⟨.key (.text [97]) 0 0, [⟨1000001, true⟩]⟩, ⟨.key .enter 0 0, [⟨1000002, true⟩]⟩]

theorem not_carried : ¬∀ motion events, Carried (run motion (.init motion) events) := by
  intro h
  have hphase : (run plainMotion (.init plainMotion) starved).anim.phase = .leave := by
    decide +kernel
  have hunlocks : (run plainMotion (.init plainMotion) starved).unlocks = [] := by decide +kernel
  have hidle : (run plainMotion (.init plainMotion) starved).outputs.any (·.frameCb) = false := by
    decide +kernel
  obtain ⟨o, ho, hw⟩ := h plainMotion starved hphase hunlocks
  exact Bool.eq_false_iff.mp hidle (List.any_eq_true.mpr ⟨o, ho, hw.2⟩)

end Lock

end SingularityShell
